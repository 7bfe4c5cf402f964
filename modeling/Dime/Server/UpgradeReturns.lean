import Mathlib.Data.Nat.Find
import Dime.Server.Upgrade

/-!
# When the WebSocket handshake returns

The receive loop keeps what has arrived in the buffer with room for a zero behind it, and from
there on every string operation stays in front of that zero. So the handshake returns unless
the request never ends, or has no line.
-/

namespace Dime

open CStrings

/-- The bytes that have arrived after a number of rounds of the receive loop, and the capacity
of the buffer. -/
def Upgrader.progress (peer : Upgrader) : Nat → Nat × Nat
  | 0 => (0, 500)
  | i + 1 =>
    let (httpLen, httpCap) := peer.progress i
    let httpLen := httpLen + (peer.recv i httpLen (httpCap - httpLen)).length
    (httpLen, if httpLen ≥ httpCap then httpCap * 3 / 2 else httpCap)

def Upgrader.received (peer : Upgrader) (i : Nat) : Bytes := peer.stream.take (peer.progress i).1

/-- There is an empty line, and no zero in front of it. -/
def EmptyLine (s : Bytes) : Prop := [Socket.cr, Socket.lf, Socket.cr, Socket.lf] <:+: chars s

/-- Something other than the ends of lines is there, in front of the first zero. -/
def HasLine (s : Bytes) : Prop := ∃ c ∈ chars s, c ∉ [Socket.cr, Socket.lf]

/-- A request arrives, and what has arrived when it is first complete has a line. -/
def Upgrader.Requests (peer : Upgrader) : Prop :=
  ∃ i, EmptyLine (peer.received i) ∧ (∀ j < i, ¬ EmptyLine (peer.received j)) ∧
    HasLine (peer.received i)

namespace Socket

/-- `recv` on a connection to a peer. -/
def fromUpgrader (peer : Upgrader) (i received space : Nat) : Except String Bytes :=
  .ok (peer.recv i received space)

/-! ## The receive loop -/

section Receive

variable {peer : Upgrader} {i : Nat} {httpHdr : Bytes} (fresh : Nat → UInt8)

theorem not_emptyLine_received_zero (peer : Upgrader) : ¬ EmptyLine (peer.received 0) := by
  simp [EmptyLine, Upgrader.received, Upgrader.progress, chars]

/-- What has arrived is at the front of the buffer, which has room for more. -/
structure Holds (peer : Upgrader) (i : Nat) (httpHdr : Bytes) : Prop where
  cap : httpHdr.length = (peer.progress i).2
  front : httpHdr.take (peer.progress i).1 = peer.received i
  room : (peer.progress i).1 < httpHdr.length
  two_le : 2 ≤ httpHdr.length

theorem holds_zero (peer : Upgrader) (fresh : Nat → UInt8) : Holds peer 0 (malloc fresh 500) where
  cap := by rw [length_malloc, Upgrader.progress]
  front := by simp [Upgrader.received, Upgrader.progress]
  room := by simp [Upgrader.progress]
  two_le := by simp

theorem length_recv_le (peer : Upgrader) (i received space : Nat) :
    (peer.recv i received space).length ≤ space :=
  (List.length_take_le _ _).trans (Nat.min_le_left _ _)

/-- What arrives continues what has arrived. -/
theorem take_append_recv (peer : Upgrader) (i received space : Nat) :
    peer.stream.take received ++ peer.recv i received space =
      peer.stream.take (received + (peer.recv i received space).length) := by
  rw [Upgrader.recv, List.take_add, List.length_take, ← List.take_eq_take_min]

theorem receive_step (h : Holds peer i httpHdr) :
    ∃ httpHdr', Holds peer (i + 1) httpHdr' ∧ httpHdr'[(peer.progress (i + 1)).1]? = some 0 ∧
      (EmptyLine (peer.received (i + 1)) → ∀ fuel,
        receive .succeed fresh (fromUpgrader peer) (fuel + 1) i httpHdr (peer.progress i).1 =
          .ok (.ok httpHdr')) ∧
      (¬ EmptyLine (peer.received (i + 1)) → ∀ fuel,
        receive .succeed fresh (fromUpgrader peer) (fuel + 1) i httpHdr (peer.progress i).1 =
          receive .succeed fresh (fromUpgrader peer) fuel (i + 1) httpHdr'
            (peer.progress (i + 1)).1) := by
  have hfit : (peer.progress i).1 + (peer.recv i (peer.progress i).1
      (httpHdr.length - (peer.progress i).1)).length ≤ httpHdr.length := by
    have := length_recv_le peer i (peer.progress i).1 (httpHdr.length - (peer.progress i).1)
    have := h.room
    omega
  obtain ⟨copied, hcopy, hcopied, hfront⟩ := copy_spec hfit
  rw [h.front] at hfront
  have hlen : (peer.progress (i + 1)).1 = (peer.progress i).1 + (peer.recv i (peer.progress i).1
      (httpHdr.length - (peer.progress i).1)).length := by
    rw [h.cap]
    rfl
  have hcap : (peer.progress (i + 1)).2 = if (peer.progress (i + 1)).1 ≥ httpHdr.length then
      httpHdr.length * 3 / 2 else httpHdr.length := by
    rw [h.cap]
    rfl
  rw [← hlen] at hfit hfront
  rw [Upgrader.received, take_append_recv, ← hlen] at hfront
  -- where the buffer is full it grows, and what is in it stays
  obtain ⟨grown, hgrown, hlength, hkept, hroom, hmore⟩ : ∃ grown,
      (if (peer.progress (i + 1)).1 ≥ copied.length then
        realloc fresh copied (copied.length * 3 / 2) else copied) = grown ∧
      grown.length = (peer.progress (i + 1)).2 ∧
      grown.take (peer.progress (i + 1)).1 = peer.received (i + 1) ∧
      (peer.progress (i + 1)).1 < grown.length ∧ copied.length ≤ grown.length := by
    have htwo := h.two_le
    rw [hcap, ← hcopied]
    rw [← hcopied] at hfit htwo
    split
    next hfull =>
      obtain ⟨hlength, hkept⟩ := realloc_spec fresh (show copied.length ≤ copied.length * 3 / 2 by omega)
      have heq : (peer.progress (i + 1)).1 = copied.length := by omega
      rw [heq, List.take_length] at hfront
      refine ⟨_, rfl, hlength, ?_, by omega, by omega⟩
      rw [Upgrader.received, heq, hkept]
      exact hfront
    next hfree => exact ⟨_, rfl, rfl, hfront, by omega, Nat.le_refl _⟩
  obtain ⟨ended, hstore, hended, htake, hend⟩ := store_zero hroom
  have hstring : chars (ended.drop 0) = chars (peer.received (i + 1)) := by
    rw [List.drop_zero, ← chars_take hend, htake, hkept]
  obtain ⟨found, hfound, hiff, -⟩ := strstr_spec hend (Nat.zero_le _) [cr, lf, cr, lf]
  rw [hstring] at hiff
  have hrun : ∀ fuel, receive .succeed fresh (fromUpgrader peer) (fuel + 1) i httpHdr (peer.progress i).1 =
      if found.isSome then .ok (.ok ended)
      else receive .succeed fresh (fromUpgrader peer) fuel (i + 1) ended (peer.progress (i + 1)).1 := by
    intro fuel
    rw [receive, fromUpgrader]
    dsimp only
    rw [hcopy, checked_ok]
    simp only [Except.bind, bind, UpgradeAlloc.succeed, not_true_eq_false, and_false, if_false, ← hlen, hgrown,
      hstore, checked_ok, hfound]
    cases found with
    | none => rfl
    | some q => rfl
  have htwo := h.two_le
  refine ⟨ended, ⟨by rw [hended, hlength], by rw [htake, hkept], by omega, by omega⟩, hend, ?_, ?_⟩
  · intro hcomplete fuel
    rw [hrun, if_pos (hiff.mpr hcomplete)]
  · intro hcomplete fuel
    rw [hrun, if_neg fun hfound => hcomplete (hiff.mp hfound)]

/-- Up to the first round after which the request is complete, the loop runs on. -/
theorem receive_ends {d : Nat} (h : Holds peer i httpHdr)
    (hbefore : ∀ j, i < j → j ≤ i + d → ¬ EmptyLine (peer.received j))
    (hcomplete : EmptyLine (peer.received (i + d + 1))) :
    ∃ httpHdr', Holds peer (i + d + 1) httpHdr' ∧
      httpHdr'[(peer.progress (i + d + 1)).1]? = some 0 ∧
      ∀ fuel, receive .succeed fresh (fromUpgrader peer) fuel i httpHdr (peer.progress i).1 =
        if d < fuel then .ok (.ok httpHdr') else .error .diverges := by
  -- `d` counts the rounds that find the request incomplete; the step of the first round is taken
  -- here, so that the induction hypothesis starts behind it
  obtain ⟨httpHdr', h', hend, hdone, hnext⟩ := receive_step fresh h
  induction d generalizing i httpHdr httpHdr' with
  | zero =>
      refine ⟨httpHdr', h', hend, ?_⟩
      intro fuel
      cases fuel with
      | zero => rfl
      | succ fuel =>
          rw [if_pos (Nat.succ_pos fuel)]
          exact hdone hcomplete fuel
  | succ d ih =>
      have hrest : i + 1 + d + 1 = i + (d + 1) + 1 := by omega
      obtain ⟨httpHdr'', h'', hend', hdone', hnext'⟩ := receive_step fresh h'
      obtain ⟨final, hfinal, hends, hrun⟩ := ih h' (fun j hj hle => hbefore j (by omega) (by omega))
        (hrest ▸ hcomplete) httpHdr'' h'' hend' hdone' hnext'
      rw [hrest] at hfinal hends
      refine ⟨final, hfinal, hends, ?_⟩
      intro fuel
      cases fuel with
      | zero => rfl
      | succ fuel =>
          rw [hnext (hbefore (i + 1) (by omega) (by omega)) fuel, hrun fuel]
          simp only [Nat.add_lt_add_iff_right]

/-- Where the request is never complete, the loop goes on for any number of rounds: at the
end of the stream `recv` keeps returning zero. -/
theorem receive_never (h : Holds peer i httpHdr)
    (hnever : ∀ j, i < j → ¬ EmptyLine (peer.received j)) (fuel : Nat) :
    receive .succeed fresh (fromUpgrader peer) fuel i httpHdr (peer.progress i).1 = .error .diverges := by
  induction fuel generalizing i httpHdr with
  | zero => rfl
  | succ fuel ih =>
      obtain ⟨httpHdr', h', -, -, hnext⟩ := receive_step fresh h
      rw [hnext (hnever (i + 1) (Nat.lt_succ_self i)) fuel]
      exact ih h' fun j hj => hnever j (by omega)

end Receive

/-! ## The lines -/

section Lines

variable {httpHdr : Bytes} {n : Nat}

/-- The values of the headers start in front of an address, or at it. -/
def Headers.Within (headers : Headers) (n : Nat) : Prop :=
  ∀ field ∈ [headers.connection, headers.upgrade, headers.secWsKey, headers.secWsVersion],
    ∀ val, field = some val → val ≤ n

theorem within_put {headers : Headers} (h : headers.Within n) (key : Bytes) {val : Nat}
    (hval : val ≤ n) : (headers.put key val).Within n := by
  have hsome : ∀ val', some val = some val' → val' ≤ n := by
    intro val' heq
    rwa [← Option.some.inj heq]
  simp only [Headers.Within, List.forall_mem_cons] at h ⊢
  obtain ⟨hconnection, hupgrade, hkey, hversion, hnil⟩ := h
  unfold Headers.put
  split
  · exact ⟨hsome, hupgrade, hkey, hversion, hnil⟩
  split
  · exact ⟨hconnection, hsome, hkey, hversion, hnil⟩
  split
  · exact ⟨hconnection, hupgrade, hsome, hversion, hnil⟩
  split
  · exact ⟨hconnection, hupgrade, hkey, hsome, hnil⟩
  · exact ⟨hconnection, hupgrade, hkey, hversion, hnil⟩

/-- The loop over the header lines takes at most one round for each byte, and leaves the zero
behind them in place. -/
theorem headerLines_returns {fuel saveptr : Nat} {headers : Headers} (hend : httpHdr[n]? = some 0)
    (hsaveptr : saveptr ≤ n) (hfuel : n - saveptr < fuel) (hwithin : headers.Within n) :
    ∃ result, headerLines fuel httpHdr saveptr headers = .ok result ∧
      ∀ httpHdr' headers', result = some (httpHdr', headers') →
        httpHdr'[n]? = some 0 ∧ headers'.Within n := by
  -- the fuel is more than the bytes between `saveptr` and the zero, and each token takes one at
  -- least
  induction fuel generalizing httpHdr saveptr headers with
  | zero => omega
  | succ fuel ih =>
      obtain ⟨token, htoken, hsound⟩ := strtok_spec [cr, lf] hend hsaveptr
      rw [headerLines, htoken]
      cases hline : token.line with
      | none =>
          refine ⟨_, by simp only [Except.bind, bind, checked_ok, hline]; rfl, ?_⟩
          rintro _ _ ⟨⟩
          exact ⟨hsound.ends, hwithin⟩
      | some line =>
          obtain ⟨hge, hlt⟩ := hsound.line line hline
          have hle := hsound.saveptr_le
          obtain ⟨found, hfound, -, hbound⟩ := strstr_spec hsound.ends (p := line) (by omega) (ascii ": ")
          cases found with
          | none =>
              refine ⟨none, by simp only [Except.bind, bind, checked_ok, hline, hfound]; rfl, ?_⟩
              intro _ _ h
              cases h
          | some delimiter =>
              obtain ⟨-, hdelimiter⟩ := hbound delimiter rfl
              have htwo : (ascii ": ").length = 2 := by decide +kernel
              obtain ⟨cut, hstore, -, hcut⟩ := store_spec hsound.ends (p := delimiter) (by omega)
              obtain ⟨hkey, -⟩ := stringAt_spec hcut (p := line) (by omega)
              -- a value may be empty: then it starts at a zero
              have hval : delimiter + 2 ≤ n := by omega
              have hfuel' : n - token.saveptr < fuel := by omega
              obtain ⟨result, hresult, hsafe⟩ := ih hcut hle hfuel'
                (within_put hwithin (chars (cut.drop line)) hval)
              refine ⟨result, ?_, hsafe⟩
              simp only [Except.bind, bind, checked_ok, hline, hfound, hstore, hkey]
              exact hresult

theorem passes_returns (hend : httpHdr[n]? = some 0) (test : Bytes → Bool) {field : Option Nat}
    (hfield : ∀ val, field = some val → val ≤ n) : ∃ result, passes httpHdr test field = .ok result ∧
      (result = true → ∃ val, field = some val) := by
  cases field with
  | none => exact ⟨false, rfl, fun h => by cases h⟩
  | some val =>
      obtain ⟨hstring, -⟩ := stringAt_spec hend (hfield val rfl)
      refine ⟨test (chars (httpHdr.drop val)), ?_, fun _ => ⟨val, rfl⟩⟩
      rw [passes, hstring]
      rfl

/-- The conditions are checked without looking at a value that is not there. -/
theorem websocketKey_returns {headers : Headers} (hend : httpHdr[n]? = some 0)
    (hwithin : headers.Within n) : ∃ result, websocketKey httpHdr headers = .ok result := by
  simp only [Headers.Within, List.forall_mem_cons] at hwithin
  obtain ⟨hconnection, hupgrade, hkey, hversion, -⟩ := hwithin
  obtain ⟨upgrades, hupgrades, -⟩ := passes_returns hend (fun s => ascii "Upgrade" <:+: s) hconnection
  obtain ⟨websocket, hwebsocket, -⟩ := passes_returns hend (· = ascii "websocket") hupgrade
  obtain ⟨keyed, hkeyed, hthere⟩ := passes_returns hend (fun s => s.length ≠ 0) hkey
  obtain ⟨versioned, hversioned, -⟩ := passes_returns hend (· = ascii "13") hversion
  simp only [websocketKey, hupgrades, hwebsocket, hkeyed, hversioned, Except.bind, bind]
  split
  · exact ⟨none, rfl⟩
  split
  · exact ⟨none, rfl⟩
  split
  · exact ⟨none, rfl⟩
  next hnot =>
    obtain ⟨val, hval⟩ := hthere (by simpa using hnot)
    obtain ⟨hstring, -⟩ := stringAt_spec hend (hkey val hval)
    split
    · exact ⟨none, rfl⟩
    · rw [hval, hstring]
      exact ⟨_, rfl⟩

theorem requestLine_returns {line : Option Nat} {s : Bytes} (h : stringAt httpHdr line = .ok s) :
    ∃ version, requestLine httpHdr line = .ok version := by
  simp only [requestLine, h, checked_ok, Except.bind, bind]
  split
  · exact ⟨none, rfl⟩
  split
  · exact ⟨none, rfl⟩
  split
  · exact ⟨none, rfl⟩
  · exact ⟨_, rfl⟩

/-- The request is cut into lines safely if it has one. If it has none, the first of them is a
null pointer, and `sscanf` reads from it. -/
theorem parse_of_hasLine (hend : httpHdr[n]? = some 0) (hline : HasLine httpHdr) :
    ∃ result, parse httpHdr = .ok result := by
  have hlt : n < httpHdr.length := (List.getElem?_eq_some_iff.mp hend).1
  obtain ⟨token, htoken, hsound⟩ := strtok_spec [cr, lf] hend (Nat.zero_le n)
  obtain ⟨c, hc, hnot⟩ := hline
  obtain ⟨line, htok⟩ : ∃ line, token.line = some line := by
    apply Option.ne_none_iff_exists'.mp
    intro hnone
    exact hnot (hsound.line_eq_none_iff.mp hnone c (by rwa [List.drop_zero]))
  have hle := hsound.saveptr_le
  obtain ⟨hstring, -⟩ := stringAt_spec hsound.ends (p := line) (by have := (hsound.line line htok).2; omega)
  have hempty : Headers.Within ⟨none, none, none, none⟩ n := by simp [Headers.Within]
  have hfuel : n - token.saveptr < httpHdr.length := by omega
  obtain ⟨result, hresult, hsafe⟩ := headerLines_returns hsound.ends hle hfuel hempty
  obtain ⟨version, hversion⟩ := requestLine_returns hstring
  rw [parse, htoken]
  simp only [Except.bind, bind, checked_ok, htok, hversion]
  cases version with
  | none => exact ⟨none, rfl⟩
  | some version =>
      simp only [hresult]
      cases result with
      | none => exact ⟨none, rfl⟩
      | some lines =>
          obtain ⟨hends, hwithin⟩ := hsafe lines.1 lines.2 rfl
          obtain ⟨key, hkey⟩ := websocketKey_returns hends hwithin
          simp only [hkey]
          cases key with
          | none => exact ⟨none, rfl⟩
          | some key => exact ⟨_, rfl⟩

theorem parse_of_not_hasLine (hend : httpHdr[n]? = some 0) (hline : ¬ HasLine httpHdr) :
    parse httpHdr = .error (.misuse .null) := by
  obtain ⟨token, htoken, hsound⟩ := strtok_spec [cr, lf] hend (Nat.zero_le n)
  have hnone : token.line = none := by
    rw [hsound.line_eq_none_iff, List.drop_zero]
    intro c hc
    by_contra hnot
    exact hline ⟨c, hc, hnot⟩
  rw [parse, htoken]
  simp only [Except.bind, bind, checked_ok, hnone, requestLine, stringAt]
  rfl

end Lines

/-! ## The response -/

theorem length_decimal_le (n : Int32) : (decimal n).length ≤ 11 := by
  have hbound : n.toInt.natAbs < 10 ^ 10 := by
    have := n.toInt_lt
    have := n.le_toInt
    omega
  have hdigits := (Nat.length_toDigits_le_iff (b := 10) (by decide) (by decide)).mpr hbound
  rw [decimal]
  split
  · simp only [List.length_cons, List.length_map]
    omega
  · simp only [List.length_map]
    omega

/-- The response fits, so the assertion holds. -/
theorem length_switchingProtocols (openssl : Openssl) (major minor : Int32) (key : Bytes) :
    (switchingProtocols major minor (Base64.encode (openssl.sha1 key))).length < 200 := by
  have hmajor := length_decimal_le major
  have hminor := length_decimal_le minor
  have hhttp : (ascii "HTTP/").length = 5 := by decide +kernel
  have hdot : (ascii ".").length = 1 := by decide +kernel
  have hfields : (ascii " 101 Switching Protocols\r\nConnection: Upgrade\r\nUpgrade: websocket\r\nSec-WebSocket-Accept: ").length =
    89 := by decide +kernel
  have hend : (ascii "\r\n\r\n").length = 4 := by decide +kernel
  simp only [switchingProtocols, List.length_append, Base64.length_encode, openssl.length_sha1, hhttp, hdot,
    hfields, hend]
  omega

theorem respond_returns (openssl : Openssl) (alloc : UpgradeAlloc) (calls : UpgradeCalls) (sock : Socket)
    (major minor : Int32) (secWsKey : Bytes) :
    ∃ ret sent sock', respond openssl alloc calls sock major minor secWsKey = .ok (ret, sent, sock') ∧
      (ret = 0 ∨ ret < 0) := by
  rw [respond, if_pos (length_switchingProtocols _ _ _ _)]
  split
  · exact ⟨_, _, _, rfl, .inr (by decide)⟩
  split
  · exact ⟨_, _, _, rfl, .inl rfl⟩
  split
  · exact ⟨_, _, _, rfl, .inr (by decide)⟩
  · exact ⟨_, _, _, rfl, .inl rfl⟩

/-! ## The handshake -/

/-- The handshake returns zero or a negative number, and has kept to its buffer and to strings
that are there. -/
def Returns (openssl : Openssl) (calls : UpgradeCalls) (peer : Upgrader) (sock : Socket) : Prop :=
  ∃ fuel ret sent sock', initWs openssl .succeed calls (fromUpgrader peer) fuel sock = .ok (ret, sent, sock') ∧
    (ret = 0 ∨ ret < 0)

section Outcomes

variable {openssl : Openssl} {calls : UpgradeCalls} {peer : Upgrader} {sock : Socket} {fuel : Nat}
  {httpHdr : Bytes} {fault : HandshakeFault}

theorem initWs_of_receive_error (hblocking : calls.blocking = .ok ())
    (h : receive .succeed calls.fresh (fromUpgrader peer) fuel 0 (malloc calls.fresh 500)
      (peer.progress 0).1 = .error fault) :
    initWs openssl .succeed calls (fromUpgrader peer) fuel sock = .error fault := by
  simp only [Upgrader.progress] at h
  rw [initWs, hblocking]
  dsimp only
  rw [if_neg (by simp [UpgradeAlloc.succeed]), h]
  rfl

theorem initWs_of_parse_error (hblocking : calls.blocking = .ok ())
    (h : receive .succeed calls.fresh (fromUpgrader peer) fuel 0 (malloc calls.fresh 500)
      (peer.progress 0).1 = .ok (.ok httpHdr)) (hparse : parse httpHdr = .error fault) :
    initWs openssl .succeed calls (fromUpgrader peer) fuel sock = .error fault := by
  simp only [Upgrader.progress] at h
  rw [initWs, hblocking]
  dsimp only
  rw [if_neg (by simp [UpgradeAlloc.succeed]), h]
  simp only [hparse, Except.bind, bind]

theorem initWs_of_parse (hblocking : calls.blocking = .ok ())
    (h : receive .succeed calls.fresh (fromUpgrader peer) fuel 0 (malloc calls.fresh 500)
      (peer.progress 0).1 = .ok (.ok httpHdr)) {result : Option (Int32 × Int32 × Bytes)}
    (hparse : parse httpHdr = .ok result) :
    ∃ ret sent sock', initWs openssl .succeed calls (fromUpgrader peer) fuel sock = .ok (ret, sent, sock') ∧
      (ret = 0 ∨ ret < 0) := by
  simp only [Upgrader.progress] at h
  rw [initWs, hblocking]
  dsimp only
  rw [if_neg (by simp [UpgradeAlloc.succeed]), h]
  simp only [hparse, Except.bind, bind]
  cases result with
  | none => exact ⟨-1, [], _, rfl, .inr (by decide)⟩
  | some result => exact respond_returns openssl _ calls sock _ _ _

end Outcomes

/-- Where a request is complete, there is a first round after which it is. -/
theorem exists_first_complete {peer : Upgrader} (h : ∃ i, EmptyLine (peer.received i)) :
    ∃ d, EmptyLine (peer.received (d + 1)) ∧ (∀ j < d + 1, ¬ EmptyLine (peer.received j)) ∧
      (peer.Requests ↔ HasLine (peer.received (d + 1))) := by
  classical
  have hcomplete := Nat.find_spec h
  have hbefore : ∀ j < Nat.find h, ¬ EmptyLine (peer.received j) := fun j hj => Nat.find_min h hj
  obtain ⟨d, hd⟩ : ∃ d, Nat.find h = d + 1 := by
    apply Nat.exists_eq_succ_of_ne_zero
    intro hzero
    exact not_emptyLine_received_zero peer (hzero ▸ hcomplete)
  rw [hd] at hcomplete hbefore
  refine ⟨d, hcomplete, hbefore, ?_, fun hline => ⟨d + 1, hcomplete, hbefore, hline⟩⟩
  rintro ⟨i, hi, hfirst, hline⟩
  have heq : i = d + 1 := by
    apply Nat.le_antisymm
    · exact Nat.le_of_not_lt fun hlt => hfirst (d + 1) hlt hcomplete
    · exact Nat.le_of_not_lt fun hlt => hbefore i hlt hi
  rwa [heq] at hline

/-- The handshake returns if and only if the peer sends a request that is complete at some
point, and that has a line where it is first complete; unless the socket cannot be switched to
blocking mode. -/
theorem initWs_returns_iff (openssl : Openssl) (calls : UpgradeCalls) (peer : Upgrader) (sock : Socket) :
    Returns openssl calls peer sock ↔ (calls.blocking = .ok () → peer.Requests) := by
  have hstart := holds_zero peer calls.fresh
  cases hblocking : calls.blocking with
  | error err =>
      refine iff_of_true ⟨0, -1, [], { sock with err }, ?_, .inr (by decide)⟩ (by simp)
      rw [initWs, hblocking]
  | ok =>
      rw [forall_prop_of_true rfl]
      by_cases hex : ∃ i, EmptyLine (peer.received i)
      · obtain ⟨d, hcomplete, hbefore, hrequests⟩ := exists_first_complete hex
        rw [← Nat.zero_add d] at hcomplete
        obtain ⟨httpHdr, h, hend, hrun⟩ := receive_ends calls.fresh hstart
          (fun j _ hj => hbefore j (by omega)) hcomplete
        have hline : HasLine httpHdr ↔ HasLine (peer.received (d + 1)) := by
          -- up to its first zero the buffer is what has arrived
          rw [HasLine, ← chars_take hend, h.front, Nat.zero_add]
          rfl
        rw [hrequests, ← hline]
        constructor
        · rintro ⟨fuel, ret, sent, sock', hinit, -⟩
          by_contra hnot
          -- with any fuel, either the loop does not get to the end or the null pointer is read
          have hnull := parse_of_not_hasLine hend hnot
          have hreceive := hrun fuel
          split at hreceive
          next =>
            rw [initWs_of_parse_error hblocking hreceive hnull] at hinit
            cases hinit
          next =>
            rw [initWs_of_receive_error hblocking hreceive] at hinit
            cases hinit
        · intro hline
          obtain ⟨result, hresult⟩ := parse_of_hasLine hend hline
          have hreceive := hrun (d + 1)
          rw [if_pos (Nat.lt_succ_self d)] at hreceive
          exact ⟨d + 1, initWs_of_parse hblocking hreceive hresult⟩
      · apply iff_of_false
        · rintro ⟨fuel, ret, sent, sock', hinit, -⟩
          have hreceive := receive_never calls.fresh hstart
            (fun j _ hcomplete => hex ⟨j, hcomplete⟩) fuel
          rw [initWs_of_receive_error hblocking hreceive] at hinit
          cases hinit
        · rintro ⟨i, hcomplete, -, -⟩
          exact hex ⟨i, hcomplete⟩

/-- Nothing else goes wrong: the handshake stays within the request buffer, and its assertion
holds. -/
theorem initWs_fault {openssl : Openssl} {calls : UpgradeCalls} {peer : Upgrader} {sock : Socket} {fuel : Nat}
    {fault : HandshakeFault}
    (h : initWs openssl .succeed calls (fromUpgrader peer) fuel sock = .error fault) :
    fault = .diverges ∨ fault = .misuse .null := by
  have hstart := holds_zero peer calls.fresh
  cases hblocking : calls.blocking with
  | error err =>
      rw [initWs, hblocking] at h
      cases h
  | ok =>
      by_cases hex : ∃ i, EmptyLine (peer.received i)
      · obtain ⟨d, hcomplete, hbefore, -⟩ := exists_first_complete hex
        rw [← Nat.zero_add d] at hcomplete
        obtain ⟨httpHdr, -, hend, hrun⟩ := receive_ends calls.fresh hstart
          (fun j _ hj => hbefore j (by omega)) hcomplete
        have hreceive := hrun fuel
        split at hreceive
        next =>
          by_cases hline : HasLine httpHdr
          · obtain ⟨result, hresult⟩ := parse_of_hasLine hend hline
            obtain ⟨_, _, _, hok, -⟩ := initWs_of_parse hblocking hreceive hresult
            rw [hok] at h
            cases h
          · rw [initWs_of_parse_error hblocking hreceive (parse_of_not_hasLine hend hline)] at h
            cases h
            exact .inr rfl
        next =>
          rw [initWs_of_receive_error hblocking hreceive] at h
          cases h
          exact .inl rfl
      · have hreceive := receive_never calls.fresh hstart
          (fun j _ hcomplete => hex ⟨j, hcomplete⟩) fuel
        rw [initWs_of_receive_error hblocking hreceive] at h
        cases h
        exact .inl rfl

/-- A SHA-1 for concrete runs. -/
def someSha1 : Openssl := ⟨fun _ => List.replicate 20 0, fun _ => List.length_replicate⟩

def someCalls : UpgradeCalls := ⟨.ok (), .ok 200, .ok (), fun _ => 0⟩

/-- A peer that closes without a word keeps the handshake from ever ending, and one that sends
an empty line makes it read from a null pointer. -/
theorem initWs_never_returns :
    ¬ Returns someSha1 someCalls ⟨[], fun _ => 1⟩ ⟨5, Ring.empty, Ring.empty, none, "", none⟩ ∧
    initWs someSha1 .succeed someCalls (fromUpgrader ⟨[cr, lf, cr, lf], fun _ => 4⟩) 1
      ⟨5, Ring.empty, Ring.empty, none, "", none⟩ = .error (.misuse .null) := by
  constructor
  · rintro ⟨fuel, ret, sent, sock', hinit, -⟩
    have hnothing : ∀ j, ¬ EmptyLine (Upgrader.received ⟨[], fun _ => 1⟩ j) := by
      intro j
      simp [EmptyLine, Upgrader.received, chars]
    have hstart := holds_zero ⟨[], fun _ => 1⟩ someCalls.fresh
    have hreceive := receive_never someCalls.fresh hstart (fun j _ => hnothing j) fuel
    rw [initWs_of_receive_error rfl hreceive] at hinit
    cases hinit
  · have hreceive : receive .succeed someCalls.fresh (fromUpgrader ⟨[cr, lf, cr, lf], fun _ => 4⟩) 1 0
        (malloc someCalls.fresh 500) 0 = .ok (.ok ([cr, lf, cr, lf] ++ List.replicate 496 0)) := by
      decide +kernel
    exact initWs_of_parse_error rfl hreceive (by decide +kernel)

end Socket

end Dime
