import Dime.Foundation.Tokens
import Dime.Server.UpgradeReturns

/-!
# Which upgrade requests are accepted

A request is a line with the method and the version, and lines with headers. The handshake
cuts its bytes in place, whatever the parts they arrive in, and accepts those requests whose
last header of each name is as the server wants it.
-/

namespace Dime

open CStrings

/-- The name and the value in the line of a header. -/
def headerField (line : Bytes) : Option (Bytes × Bytes) :=
  (find (ascii ": ") line).map fun i => (line.take i, line.drop (i + 2))

/-- The value of the last header with a name. -/
def headerValue (name : Bytes) (fields : List (Bytes × Bytes)) : Option Bytes :=
  ((fields.filter fun field => field.1 = name).getLast?).map Prod.snd

@[simp] theorem headerValue_nil (name : Bytes) : headerValue name [] = none := rfl

/-- A header hides the ones in front of it with its name. -/
theorem headerValue_append (name : Bytes) (fields : List (Bytes × Bytes)) (key s : Bytes) :
    headerValue name (fields ++ [(key, s)]) =
      if key = name then some s else headerValue name fields := by
  rw [headerValue, List.filter_append]
  split
  next h => simp [h]
  next h => simp [h, headerValue]

/-- The headers ask for a WebSocket, with a key. -/
def Offers (fields : List (Bytes × Bytes)) (key : Bytes) : Prop :=
  (∃ connection, headerValue (ascii "Connection") fields = some connection ∧
      ascii "Upgrade" <:+: connection) ∧
    headerValue (ascii "Upgrade") fields = some (ascii "websocket") ∧
    (headerValue (ascii "Sec-WebSocket-Key") fields = some key ∧ key ≠ []) ∧
    headerValue (ascii "Sec-WebSocket-Version") fields = some (ascii "13")

namespace Socket

/-! ## The header lines -/

section Lines

variable {httpHdr : Bytes} {n : Nat}

/-- An address is that of a string which ends by another one; or there is neither. -/
def Shows (httpHdr : Bytes) (n : Nat) : Option Nat → Option Bytes → Prop :=
  Option.Rel fun val s => stringAt httpHdr (some val) = .ok s ∧ val + s.length ≤ n

theorem Shows.mono {httpHdr' : Bytes} {n' : Nat} {val : Option Nat} {s : Option Bytes}
    (h : Shows httpHdr n val s)
    (hkept : ∀ val s, stringAt httpHdr (some val) = .ok s → val + s.length ≤ n →
      stringAt httpHdr' (some val) = .ok s ∧ val + s.length ≤ n') :
    Shows httpHdr' n' val s := by
  cases h with
  | some hval => exact .some (hkept _ _ hval.1 hval.2)
  | none => exact .none

/-- The headers that count, by their names. -/
def Headers.named (headers : Headers) : List (Bytes × Option Nat) :=
  [(ascii "Connection", headers.connection), (ascii "Upgrade", headers.upgrade),
    (ascii "Sec-WebSocket-Key", headers.secWsKey),
    (ascii "Sec-WebSocket-Version", headers.secWsVersion)]

theorem named_put (headers : Headers) (key : Bytes) (val : Nat) :
    (headers.put key val).named =
      headers.named.map fun field => (field.1, if key = field.1 then some val else field.2) := by
  have hnames : [ascii "Connection", ascii "Upgrade", ascii "Sec-WebSocket-Key",
      ascii "Sec-WebSocket-Version"].Pairwise fun a b => a ≠ b ∧ b ≠ a := by decide +kernel
  simp only [List.pairwise_cons, List.forall_mem_cons] at hnames
  unfold Headers.put
  split
  next h => simp [Headers.named, h, hnames]
  split
  next h => simp [Headers.named, h, hnames]
  split
  next h => simp [Headers.named, h, hnames]
  split
  next h => simp [Headers.named, h, hnames]
  next hconnection hupgrade hkey hversion =>
    simp [Headers.named, hconnection, hupgrade, hkey, hversion]

/-- The headers hold the last values of the fields that have been read. -/
def Reads (httpHdr : Bytes) (n : Nat) (headers : Headers) (fields : List (Bytes × Bytes)) : Prop :=
  ∀ field ∈ headers.named, Shows httpHdr n field.2 (headerValue field.1 fields)

theorem Reads.put {headers : Headers} {fields : List (Bytes × Bytes)}
    (h : Reads httpHdr n headers fields) (key : Bytes) {val : Nat} {s : Bytes}
    (hval : stringAt httpHdr (some val) = .ok s) (hle : val + s.length ≤ n) :
    Reads httpHdr n (headers.put key val) (fields ++ [(key, s)]) := by
  rw [Reads, named_put, List.forall_mem_map]
  intro field hfield
  dsimp only
  rw [headerValue_append]
  split
  next => exact .some ⟨hval, hle⟩
  next => exact h field hfield

/-- Strings that are still there later. -/
theorem Reads.mono {httpHdr' : Bytes} {n' : Nat} {headers : Headers} {fields : List (Bytes × Bytes)}
    (h : Reads httpHdr n headers fields)
    (hkept : ∀ val s, stringAt httpHdr (some val) = .ok s → val + s.length ≤ n →
      stringAt httpHdr' (some val) = .ok s ∧ val + s.length ≤ n') :
    Reads httpHdr' n' headers fields := by
  intro field hfield
  exact (h field hfield).mono hkept

/-- The loop over the header lines reads the fields in the lines that are left; a line that has
no delimiter ends it. -/
theorem headerLines_eq {fuel saveptr : Nat} {s : Bytes} {headers : Headers}
    {fields : List (Bytes × Bytes)} (hs : stringAt httpHdr (some saveptr) = .ok s)
    (hfuel : s.length < fuel) (hreads : Reads httpHdr saveptr headers fields) :
    ((tokens [cr, lf] s).mapM headerField = none →
      headerLines fuel httpHdr saveptr headers = .ok none) ∧
    ∀ more, (tokens [cr, lf] s).mapM headerField = some more → ∃ httpHdr' headers' n,
      headerLines fuel httpHdr saveptr headers = .ok (some (httpHdr', headers')) ∧
        Reads httpHdr' n headers' (fields ++ more) := by
  induction fuel generalizing httpHdr saveptr s headers fields with
  | zero => omega
  | succ fuel ih =>
      by_cases hlines : ∀ c ∈ s, c ∈ [cr, lf]
      · obtain ⟨saveptr', htoken⟩ := strtok_none hs hlines
        have hrun : headerLines (fuel + 1) httpHdr saveptr headers = .ok (some (httpHdr, headers)) := by
          rw [headerLines, htoken]
          rfl
        rw [tokens_of_forall_mem hlines, List.mapM_nil, hrun]
        refine ⟨fun h => (Option.some_ne_none _ h).elim, ?_⟩
        rintro more ⟨⟩
        rw [List.append_nil]
        exact ⟨httpHdr, headers, saveptr, rfl, hreads⟩
      · obtain ⟨token, line, word, rest, htoken, hcuts⟩ := strtok_some hs hlines
        have hstrstr := strstr_eq hcuts.word_eq (ascii ": ")
        rw [headerLines, htoken]
        simp only [Except.bind, bind, checked_ok, hcuts.line_eq, hstrstr]
        rw [hcuts.tokens_eq, List.mapM_cons, headerField]
        cases hfind : find (ascii ": ") word with
        | none => exact ⟨fun _ => rfl, fun more h => (Option.some_ne_none _ h.symm).elim⟩
        | some i =>
            have htwo : (ascii ": ").length = 2 := by decide +kernel
            have hi := find_le hfind
            rw [htwo] at hi
            have hlength := hcuts.end_le
            -- the delimiter and what follows it are in the token
            have hkey : stringAt token.buf (some line) = .ok (word.take i ++ word.drop i) := by
              rw [List.take_append_drop]
              exact hcuts.word_eq
            have hval : stringAt token.buf (some line) =
                .ok (word.take (i + 2) ++ word.drop (i + 2)) := by
              rw [List.take_append_drop]
              exact hcuts.word_eq
            have hlt := stringAt_lt hcuts.word_eq
            have hleft : (word.take i).length = i := List.length_take_of_le (by omega)
            have hskip : (word.take (i + 2)).length = i + 2 := List.length_take_of_le (by omega)
            have hkey' := stringAt_set hkey
            have hval' := stringAt_drop hval
            rw [hleft] at hkey'
            rw [hskip, ← stringAt_set_of_lt (show line + i < line + (i + 2) by omega) 0] at hval'
            have hrest := hcuts.rest_eq
            rw [← stringAt_set_of_lt (show line + i < token.saveptr by omega) 0] at hrest
            have hkept : Reads (token.buf.set (line + i) 0) token.saveptr headers fields := by
              refine hreads.mono fun val t ht hle => ?_
              obtain ⟨hstring, hbefore⟩ := hcuts.string ht hle
              refine ⟨stringAt_of_take hstring (List.take_set_of_le (Nat.le_refl _)) (by omega), ?_⟩
              omega
            have hput := hkept.put (word.take i) hval' (by rw [List.length_drop]; omega)
            have hlt' := hcuts.length_lt
            obtain ⟨hnone, hsome⟩ := ih hrest (by omega) hput
            simp only [Option.map_some, store, if_pos (show line + i < token.buf.length by omega),
              checked_ok, hkey']
            rw [Nat.add_assoc]
            cases hmore : (tokens [cr, lf] rest).mapM headerField with
            | none => exact ⟨fun _ => hnone hmore, fun more h => (Option.some_ne_none _ h.symm).elim⟩
            | some more =>
                refine ⟨fun h => (Option.some_ne_none _ h).elim, ?_⟩
                rintro _ ⟨⟩
                obtain ⟨httpHdr', headers', n, hrun, hreads'⟩ := hsome more hmore
                rw [List.append_assoc] at hreads'
                exact ⟨httpHdr', headers', n, hrun, hreads'⟩

theorem passes_eq {val : Option Nat} {s : Option Bytes} (h : Shows httpHdr n val s)
    (test : Bytes → Bool) : passes httpHdr test val = .ok (s.any test) := by
  rw [Shows] at h
  cases h with
  | none => rfl
  | some h =>
      rw [passes, h.1]
      rfl

theorem Shows.string {val : Option Nat} {s : Bytes} (h : Shows httpHdr n val (some s)) :
    stringAt httpHdr val = .ok s := by
  cases h with
  | some h => exact h.1

/-- The headers are looked at by their values. -/
theorem websocketKey_eq {headers : Headers} {fields : List (Bytes × Bytes)}
    (h : Reads httpHdr n headers fields) :
    (∀ key, Offers fields key → websocketKey httpHdr headers = .ok (some key)) ∧
      ((∀ key, ¬ Offers fields key) → websocketKey httpHdr headers = .ok none) := by
  simp only [Reads, Headers.named, List.forall_mem_cons] at h
  obtain ⟨hconnection, hupgrade, hkey, hversion, -⟩ := h
  simp only [websocketKey, passes_eq hconnection, passes_eq hupgrade, passes_eq hkey,
    passes_eq hversion, Except.bind, bind, Offers]
  constructor
  · rintro key ⟨⟨connection, hvalue, hpart⟩, hwebsocket, ⟨hthere, hne⟩, hthirteen⟩
    rw [hthere] at hkey
    simp [hvalue, hpart, hwebsocket, hthere, hne, hthirteen, hkey.string]
    rfl
  · intro hnot
    split
    · rfl
    split
    · rfl
    split
    · rfl
    split
    · rfl
    next hconnection' hupgrade' hkey' hversion' =>
      simp only [Option.any_eq_true, decide_eq_true_eq, not_not]
        at hconnection' hupgrade' hkey' hversion'
      obtain ⟨key, hthere, hne⟩ := hkey'
      obtain ⟨_, hwebsocket, rfl⟩ := hupgrade'
      obtain ⟨_, hthirteen, rfl⟩ := hversion'
      have hne' : key ≠ [] := by
        rintro rfl
        exact hne rfl
      exact (hnot key ⟨hconnection', hwebsocket, ⟨hthere, hne'⟩, hthirteen⟩).elim

end Lines

/-! ## The request line -/

/-- A word of a request line. -/
def IsWord (word : Bytes) : Prop := word ≠ [] ∧ ∀ c ∈ word, isSpace c = false

def IsNumber (digits : Bytes) : Prop := digits ≠ [] ∧ ∀ c ∈ digits, isDigit c = true

instance (word : Bytes) : Decidable (IsWord word) := inferInstanceAs (Decidable (_ ∧ _))

instance (digits : Bytes) : Decidable (IsNumber digits) := inferInstanceAs (Decidable (_ ∧ _))

theorem skipSpace_of_word {word : Bytes} (h : IsWord word) (rest : Bytes) :
    skipSpace (word ++ rest) = word ++ rest := by
  obtain ⟨c, word, rfl⟩ := List.exists_cons_of_ne_nil h.1
  rw [skipSpace, List.cons_append, List.dropWhile_cons_of_neg (by simp [h.2 c List.mem_cons_self])]

theorem takeWhile_word {word : Bytes} (h : IsWord word) (rest : Bytes) :
    (word ++ 0x20 :: rest).takeWhile (fun c => ¬ isSpace c) = word := by
  rw [List.takeWhile_append_of_pos (by simpa using h.2), List.takeWhile_cons_of_neg (by decide),
    List.append_nil]

/-- `%s` stores as much of a word as fits. -/
theorem scanWord_eq {word : Bytes} (h : IsWord word) {width : Nat} (hwidth : width ≠ 0)
    (rest : Bytes) :
    scanWord width (word ++ 0x20 :: rest) =
      some (word.take width, word.drop width ++ 0x20 :: rest) := by
  have hne : word.take width ≠ [] := by simp [hwidth, h.1]
  simp only [scanWord, skipSpace_of_word h, takeWhile_word h, if_neg hne]
  rw [List.length_take, List.drop_append]
  rcases Nat.le_total width word.length with hle | hle
  · rw [Nat.min_eq_left hle, Nat.sub_eq_zero_of_le hle, List.drop_zero]
  · rw [Nat.min_eq_right hle, Nat.sub_self, List.drop_zero, List.drop_length,
      List.drop_eq_nil_of_le hle]

theorem scanText_append (text rest : Bytes) : scanText text (text ++ rest) = some rest := by
  rw [scanText, if_pos (List.prefix_append _ _), List.drop_left]

theorem not_isSpace_of_isDigit {c : UInt8} (h : isDigit c = true) :
    isSpace c = false ∧ c ≠ 0x2B ∧ c ≠ 0x2D := by
  simp only [isDigit, Bool.and_eq_true, decide_eq_true_eq, UInt8.le_iff_toNat_le] at h
  simp only [isSpace, Bool.or_eq_false_iff, Bool.and_eq_false_iff, decide_eq_false_iff_not,
    UInt8.le_iff_toNat_le, ← UInt8.toNat_inj, ne_eq]
  simp only [UInt8.reduceToNat] at h ⊢
  omega

/-- `%d` reads a number up to the first character that is no digit. -/
theorem scanInt_eq {digits : Bytes} (h : IsNumber digits) {rest : Bytes}
    (hrest : rest.takeWhile isDigit = []) :
    scanInt (digits ++ rest) = some (toInt false digits, rest) := by
  have hword : IsWord digits := ⟨h.1, fun c hc => (not_isSpace_of_isDigit (h.2 c hc)).1⟩
  have hskip := skipSpace_of_word hword rest
  have htake : (digits ++ rest).takeWhile isDigit = digits := by
    rw [List.takeWhile_append_of_pos h.2, hrest, List.append_nil]
  obtain ⟨c, hc, hhead⟩ : ∃ c, isDigit c = true ∧ (digits ++ rest).head? = some c := by
    obtain ⟨c, more, rfl⟩ := List.exists_cons_of_ne_nil h.1
    exact ⟨c, h.2 c List.mem_cons_self, rfl⟩
  obtain ⟨-, hplus, hminus⟩ := not_isSpace_of_isDigit hc
  simp only [scanInt, hskip, hhead, Option.some.injEq, hplus, hminus, or_self, if_false, htake, if_neg h.1,
    List.drop_left, decide_false]

end Socket

/-! ## Requests -/

/-- A request to upgrade a connection; the version by its digits. -/
structure UpgradeRequest where
  method : Bytes
  target : Bytes
  major : Bytes
  minor : Bytes
  lines : List Bytes

/-- A line that is not empty, within a string. -/
def IsLine (line : Bytes) : Prop := line ≠ [] ∧ ∀ c ∈ line, c ∉ [0, Socket.cr, Socket.lf]

instance (line : Bytes) : Decidable (IsLine line) := inferInstanceAs (Decidable (_ ∧ _))

namespace UpgradeRequest

/-- Words, numbers that `int` has room for, and lines. -/
structure WellFormed (request : UpgradeRequest) : Prop where
  method : Socket.IsWord request.method ∧ 0 ∉ request.method
  target : Socket.IsWord request.target ∧ 0 ∉ request.target
  major : Socket.IsNumber request.major
  minor : Socket.IsNumber request.minor
  version : Socket.value request.major * 10 + Socket.value request.minor < 2 ^ 31
  lines : ∀ line ∈ request.lines, IsLine line

def line (request : UpgradeRequest) : Bytes :=
  request.method ++ 0x20 :: (request.target ++ 0x20 :: (ascii "HTTP/" ++
    (request.major ++ (ascii "." ++ request.minor))))

/-- The bytes of the request: its lines, each with the end of a line behind it, and an empty
line. -/
def render (request : UpgradeRequest) : Bytes :=
  (request.line :: request.lines).flatMap (· ++ [Socket.cr, Socket.lf]) ++ [Socket.cr, Socket.lf]

/-- A `GET` of a version from 1.1 on whose headers ask for a WebSocket with a key. -/
def Asks (request : UpgradeRequest) (key : Bytes) : Prop :=
  request.method = ascii "GET" ∧
    11 ≤ Socket.value request.major * 10 + Socket.value request.minor ∧
    ∃ fields, request.lines.mapM headerField = some fields ∧ Offers fields key

end UpgradeRequest

namespace Socket

/-! ## The version -/

theorem toInt_toInt {digits : Bytes} (h : value digits < 2 ^ 31) :
    (toInt false digits).toInt = value digits := by
  simp only [toInt, Bool.false_eq_true, if_false]
  rw [Int32.toInt_ofInt_of_le (by omega) (by omega)]
  omega

/-- Within the range of `int` the version is compared as it is. -/
theorem version_lt_iff {major minor : Bytes} (h : value major * 10 + value minor < 2 ^ 31) :
    toInt false major * 10 + toInt false minor < 11 ↔ value major * 10 + value minor < 11 := by
  rw [Int32.lt_iff_toInt_lt, Int32.toInt_add, Int32.toInt_mul, toInt_toInt (by omega),
    toInt_toInt (by omega)]
  have hten : Int32.toInt 10 = 10 := by decide
  have heleven : Int32.toInt 11 = 11 := by decide
  rw [hten, heleven, Int.bmod_eq_of_le (n := (value major : Int) * 10) (by omega) (by omega),
    Int.bmod_eq_of_le (by omega) (by omega)]
  omega

section RequestLine

variable {request : UpgradeRequest}

theorem skipSpace_space (s : Bytes) : skipSpace (0x20 :: s) = skipSpace s :=
  List.dropWhile_cons_of_pos (by decide)

/-- At most seven characters of the method are looked at. -/
theorem sscanf_method {word rest : Bytes} (h : IsWord word) {result : Bytes × Int32 × Int32}
    (hresult : sscanf (word ++ 0x20 :: rest) = some result) : result.1 = word.take 7 := by
  simp only [sscanf, scanWord_eq h (show 7 ≠ 0 by decide), bind, Option.bind_some,
    Option.bind_eq_some_iff, pure, Option.some.injEq] at hresult
  obtain ⟨_, -, _, -, _, -, _, -, _, -, rfl⟩ := hresult
  rfl

theorem sscanf_line (hform : request.WellFormed) (hmethod : request.method.length ≤ 7) :
    sscanf request.line =
      some (request.method, toInt false request.major, toInt false request.minor) := by
  have hhttp : IsWord (ascii "HTTP/") := by decide +kernel
  have hdot : ∀ rest, (ascii "." ++ rest).takeWhile isDigit = [] := by
    intro rest
    rw [show ascii "." = [0x2E] by decide +kernel, List.singleton_append,
      List.takeWhile_cons_of_neg (by decide)]
  generalize hrest : ascii "HTTP/" ++ (request.major ++ (ascii "." ++ request.minor)) = rest
  have hlength : (0x20 :: (request.target ++ 0x20 :: rest)).length ≠ 0 := by simp
  have hlong : request.target.length ≤ (0x20 :: (request.target ++ 0x20 :: rest)).length := by
    rw [List.length_cons, List.length_append]
    omega
  have hminor : scanInt (request.minor ++ []) = _ := scanInt_eq hform.minor rfl
  rw [List.append_nil] at hminor
  simp only [sscanf, UpgradeRequest.line, hrest, scanWord_eq hform.method.1 (show 7 ≠ 0 by decide), bind,
    Option.bind_some, List.take_of_length_le hmethod, List.drop_eq_nil_of_le hmethod, List.nil_append,
    skipSpace_space, skipSpace_of_word hform.target.1, scanWord_eq hform.target.1 hlength,
    List.take_of_length_le hlong, List.drop_eq_nil_of_le hlong]
  rw [← hrest, skipSpace_of_word hhttp]
  simp only [scanText_append, Option.bind_some, scanInt_eq hform.major (hdot _), hminor]
  rfl

/-- The request line is accepted for a `GET` of a version from 1.1 on. -/
theorem requestLine_eq (hform : request.WellFormed) {httpHdr : Bytes} {line : Nat}
    (h : stringAt httpHdr (some line) = .ok request.line) :
    requestLine httpHdr (some line) = .ok
      (if request.method = ascii "GET" ∧ 11 ≤ value request.major * 10 + value request.minor then
        some (toInt false request.major, toInt false request.minor) else none) := by
  have hget : (ascii "GET").length = 3 := by decide +kernel
  simp only [requestLine, h, checked_ok, Except.bind, bind]
  rcases Nat.lt_or_ge 7 request.method.length with hlong | hmethod
  · have hne : request.method ≠ ascii "GET" := by
      intro heq
      rw [heq] at hlong
      omega
    rw [if_neg fun h => hne h.1]
    cases hresult : sscanf request.line with
    | none => rfl
    | some result =>
        have hfirst := sscanf_method hform.method.1 hresult
        have hcut : result.1 ≠ ascii "GET" := by
          intro heq
          have := congrArg List.length (hfirst.symm.trans heq)
          rw [List.length_take, hget] at this
          omega
        simp only [hcut, ne_eq, not_false_eq_true, if_true]
        rfl
  · rw [sscanf_line hform hmethod]
    dsimp only
    by_cases hmethod : request.method = ascii "GET"
    · by_cases hversion : 11 ≤ value request.major * 10 + value request.minor
      · rw [if_neg (not_not.mpr hmethod),
          if_neg (fun hlt => Nat.not_lt.mpr hversion ((version_lt_iff hform.version).mp hlt)),
          if_pos ⟨hmethod, hversion⟩]
        rfl
      · rw [if_neg (not_not.mpr hmethod),
          if_pos ((version_lt_iff hform.version).mpr (Nat.lt_of_not_le hversion)),
          if_neg fun h => hversion h.2]
        rfl
    · rw [if_pos hmethod, if_neg fun h => hmethod h.1]
      rfl

end RequestLine

/-! ## The whole request -/

section Render

variable {request : UpgradeRequest}

theorem isLine_of_word {word rest : Bytes} (h : IsWord word) (hzero : 0 ∉ word)
    (hrest : ∀ c ∈ rest, c ∉ [0, cr, lf]) : IsLine (word ++ rest) := by
  refine ⟨fun hnil => h.1 (List.append_eq_nil_iff.mp hnil).1, ?_⟩
  simp only [List.forall_mem_append]
  refine ⟨?_, hrest⟩
  intro c hc hmem
  have hspace := h.2 c hc
  rcases List.mem_cons.mp hmem with rfl | hmem
  · exact hzero hc
  rcases List.mem_cons.mp hmem with rfl | hmem
  · exact absurd hspace (by decide)
  · obtain rfl := List.mem_singleton.mp hmem
    exact absurd hspace (by decide)

theorem not_end_of_isDigit {c : UInt8} (h : isDigit c = true) : c ∉ [0, cr, lf] := by
  intro hmem
  rcases List.mem_cons.mp hmem with rfl | hmem
  · exact absurd h (by decide)
  rcases List.mem_cons.mp hmem with rfl | hmem
  · exact absurd h (by decide)
  · obtain rfl := List.mem_singleton.mp hmem
    exact absurd h (by decide)

/-- The request line is a line. -/
theorem isLine_line (hform : request.WellFormed) : IsLine request.line := by
  have hhttp : ∀ c ∈ ascii "HTTP/", c ∉ [0, cr, lf] := by decide +kernel
  have hdot : ∀ c ∈ ascii ".", c ∉ [0, cr, lf] := by decide +kernel
  have hspace : (0x20 : UInt8) ∉ [0, cr, lf] := by decide
  have hversion : ∀ c ∈ 0x20 :: (ascii "HTTP/" ++ (request.major ++ (ascii "." ++ request.minor))),
      c ∉ [0, cr, lf] := by
    simp only [List.forall_mem_cons, List.forall_mem_append]
    exact ⟨hspace, hhttp, fun c hc => not_end_of_isDigit (hform.major.2 c hc), hdot,
      fun c hc => not_end_of_isDigit (hform.minor.2 c hc)⟩
  have htarget := isLine_of_word hform.target.1 hform.target.2 hversion
  apply isLine_of_word hform.method.1 hform.method.2
  rw [List.forall_mem_cons]
  exact ⟨hspace, htarget.2⟩

theorem tokens_lines {lines : List Bytes} (h : ∀ line ∈ lines, IsLine line) :
    tokens [cr, lf] (lines.flatMap (· ++ [cr, lf]) ++ [cr, lf]) = lines := by
  have hends : ∀ c ∈ [cr, lf], c ∈ [cr, lf] := fun c hc => hc
  induction lines with
  | nil => exact tokens_of_forall_mem hends
  | cons line lines ih =>
      obtain ⟨hline, hlines⟩ := List.forall_mem_cons.mp h
      have hchars : ∀ c ∈ line, c ∉ [cr, lf] := fun c hc hmem =>
        hline.2 c hc (List.mem_cons_of_mem _ hmem)
      rw [List.flatMap_cons, List.append_assoc, List.append_assoc, List.cons_append,
        tokens_append_cons _ _ (hends cr List.mem_cons_self), tokens_word hline.1 hchars,
        tokens_append (fun c hc => List.mem_cons_of_mem _ hc), ih hlines, List.singleton_append]

theorem zero_not_mem_lines {lines : List Bytes} (h : ∀ line ∈ lines, IsLine line) :
    0 ∉ lines.flatMap (· ++ [cr, lf]) ++ [cr, lf] := by
  have hends : (0 : UInt8) ∉ [cr, lf] := by decide
  simp only [List.mem_append, List.mem_flatMap, not_or, not_exists, not_and]
  refine ⟨fun line hline => ⟨?_, hends⟩, hends⟩
  exact fun hmem => (h line hline).2 0 hmem List.mem_cons_self

/-- Behind the end of a line, the end of a line is the empty line. -/
theorem eq_nil_of_emptyLine {lines : List Bytes} (h : ∀ line ∈ lines, IsLine line) {back : Bytes}
    (heq : lines.flatMap (· ++ [cr, lf]) ++ [cr, lf] = cr :: lf :: back) : back = [] := by
  cases lines with
  | nil =>
      simp only [List.flatMap_nil, List.nil_append, List.cons.injEq, true_and] at heq
      exact heq.symm
  | cons line lines =>
      obtain ⟨hline, -⟩ := List.forall_mem_cons.mp h
      obtain ⟨c, more, rfl⟩ := List.exists_cons_of_ne_nil hline.1
      simp only [List.flatMap_cons, List.cons_append, List.cons.injEq] at heq
      exact (hline.2 c List.mem_cons_self (by simp [heq.1])).elim

/-- The lines of a request end at its empty line, and there is no other one. -/
theorem emptyLine_last {lines : List Bytes} (h : ∀ line ∈ lines, IsLine line) {front back : Bytes}
    (heq : lines.flatMap (· ++ [cr, lf]) ++ [cr, lf] = front ++ ([cr, lf, cr, lf] ++ back)) :
    back = [] := by
  have hcr : cr ≠ lf := by decide
  induction lines generalizing front with
  | nil =>
      have := congrArg List.length heq
      simp only [List.flatMap_nil, List.nil_append, List.length_append, List.length_cons,
        List.length_nil] at this
      omega
  | cons line lines ih =>
      obtain ⟨hline, hlines⟩ := List.forall_mem_cons.mp h
      have hstart : cr ∉ line := fun hmem => hline.2 cr hmem (by simp)
      rw [List.flatMap_cons, List.append_assoc, List.append_assoc] at heq
      -- the empty line starts at the end of this line, or after it
      obtain ⟨more, hmore⟩ : ∃ more, [cr, lf] ++ (lines.flatMap (· ++ [cr, lf]) ++ [cr, lf]) =
          more ++ ([cr, lf, cr, lf] ++ back) := by
        rcases List.append_eq_append_iff.mp heq with ⟨more, -, hmore⟩ | ⟨more, rfl, hmore⟩
        · exact ⟨more, hmore⟩
        · cases more with
          | nil => exact ⟨[], hmore.symm⟩
          | cons c more =>
              simp only [List.cons_append, List.cons.injEq] at hmore
              exact (hstart (by simp [hmore.1])).elim
      cases more with
      | nil =>
          simp only [List.nil_append, List.cons_append, List.cons.injEq, true_and] at hmore
          exact eq_nil_of_emptyLine hlines hmore
      | cons c more =>
          cases more with
          | nil =>
              simp only [List.cons_append, List.nil_append, List.cons.injEq] at hmore
              exact (hcr hmore.2.1.symm).elim
          | cons d more =>
              simp only [List.cons_append, List.nil_append, List.cons.injEq] at hmore
              exact ih hlines (by simpa using hmore.2.2)

/-- The bytes of a request are those of its lines. -/
theorem lines_render (hform : request.WellFormed) :
    ∀ line ∈ request.line :: request.lines, IsLine line :=
  List.forall_mem_cons.mpr ⟨isLine_line hform, hform.lines⟩

/-- No part of a request looks complete. -/
theorem emptyLine_take (hform : request.WellFormed) {n : Nat}
    (h : EmptyLine (request.render.take n)) : request.render.take n = request.render := by
  obtain ⟨front, back, heq⟩ := h
  obtain ⟨more, hmore⟩ := chars_prefix (request.render.take n)
  have hsplit := calc
    request.render = request.render.take n ++ request.render.drop n :=
        (List.take_append_drop _ _).symm
    _ = front ++ ([cr, lf, cr, lf] ++ (back ++ (more ++ request.render.drop n))) := by
        rw [← hmore, ← heq]
        simp only [List.append_assoc]
  have hlast := emptyLine_last (lines_render hform) hsplit
  simp only [List.append_eq_nil_iff] at hlast
  conv_rhs => rw [← List.take_append_drop n request.render, hlast.2.2, List.append_nil]

theorem emptyLine_render (hform : request.WellFormed) : EmptyLine request.render := by
  have hzero := zero_not_mem_lines (lines_render hform)
  obtain ⟨lines, last, hlast⟩ := List.eq_nil_or_concat' (request.line :: request.lines) |>.resolve_left
    (List.cons_ne_nil _ _)
  rw [EmptyLine, UpgradeRequest.render, chars_eq_self hzero, hlast]
  exact ⟨lines.flatMap (· ++ [cr, lf]) ++ last, [], by simp⟩

/-- The request is cut into its lines, and the answer depends on these. -/
theorem parse_eq (hform : request.WellFormed) {httpHdr : Bytes}
    (h : stringAt httpHdr (some 0) = .ok request.render) :
    (∀ key, request.Asks key → parse httpHdr =
      .ok (some (toInt false request.major, toInt false request.minor, key))) ∧
    ((∀ key, ¬ request.Asks key) → parse httpHdr = .ok none) := by
  have htokens : tokens [cr, lf] request.render = request.line :: request.lines :=
    tokens_lines (lines_render hform)
  have hsome : ¬ ∀ c ∈ request.render, c ∈ [cr, lf] := by
    intro hall
    rw [tokens_of_forall_mem hall] at htokens
    exact List.cons_ne_nil _ _ htokens.symm
  obtain ⟨token, q, word, rest, htoken, hcuts⟩ := strtok_some h hsome
  obtain ⟨rfl, hrest⟩ := List.cons.inj (htokens.symm.trans hcuts.tokens_eq)
  have hempty : Reads token.buf token.saveptr ⟨none, none, none, none⟩ [] := by
    intro field hfield
    simp only [Headers.named, List.mem_cons, List.not_mem_nil, or_false] at hfield
    rcases hfield with rfl | rfl | rfl | rfl <;> exact .none
  have hfuel : rest.length < httpHdr.length := by
    have := hcuts.length_lt
    have := stringAt_lt h
    omega
  obtain ⟨hnone, hfields⟩ := headerLines_eq hcuts.rest_eq hfuel hempty
  rw [← hrest] at hnone hfields
  simp only [parse, htoken, checked_ok, Except.bind, bind, hcuts.line_eq,
    requestLine_eq hform hcuts.word_eq]
  constructor
  · rintro key ⟨hget, hversion, fields, hlines, hoffers⟩
    obtain ⟨httpHdr', headers', n, hrun, hreads⟩ := hfields fields hlines
    rw [List.nil_append] at hreads
    rw [if_pos ⟨hget, hversion⟩]
    simp only [hrun, (websocketKey_eq hreads).1 key hoffers]
    rfl
  · intro hnot
    by_cases hline : request.method = ascii "GET" ∧ 11 ≤ value request.major * 10 + value request.minor
    · rw [if_pos hline]
      cases hlines : request.lines.mapM headerField with
      | none =>
          simp only [hnone hlines]
          rfl
      | some fields =>
          obtain ⟨httpHdr', headers', n, hrun, hreads⟩ := hfields fields hlines
          rw [List.nil_append] at hreads
          have hoffers : ∀ key, ¬ Offers fields key := fun key hoffers =>
            hnot key ⟨hline.1, hline.2, fields, hlines, hoffers⟩
          simp only [hrun, (websocketKey_eq hreads).2 hoffers]
          rfl
    · rw [if_neg hline]
      rfl

end Render

/-! ## The answer -/

/-- The loop goes on until all bytes have arrived. -/
theorem min_le_progress (peer : Upgrader) (i : Nat) :
    min i peer.stream.length ≤ (peer.progress i).1 ∧ (peer.progress i).1 < (peer.progress i).2 ∧
      2 ≤ (peer.progress i).2 := by
  induction i with
  | zero =>
      rw [Upgrader.progress]
      omega
  | succ i ih =>
      have hrecv : (peer.recv i (peer.progress i).1 ((peer.progress i).2 - (peer.progress i).1)).length =
          min (min ((peer.progress i).2 - (peer.progress i).1) (max 1 (peer.split i)))
            (peer.stream.length - (peer.progress i).1) := by
        rw [Upgrader.recv, List.length_take, List.length_drop]
      simp only [Upgrader.progress, hrecv]
      split <;> omega

/-- However the bytes of a request arrive, the handshake sees the whole request. -/
theorem receive_render {peer : Upgrader} {request : UpgradeRequest} (hform : request.WellFormed)
    (hstream : peer.stream = request.render) (fresh : Nat → UInt8) :
    ∃ rounds httpHdr, stringAt httpHdr (some 0) = .ok request.render ∧ ∀ fuel > rounds,
      receive .succeed fresh (fromUpgrader peer) fuel 0 (malloc fresh 500) 0 = .ok (.ok httpHdr) := by
  have hcomplete : EmptyLine (peer.received peer.stream.length) := by
    have hle := (min_le_progress peer peer.stream.length).1
    rw [Nat.min_self] at hle
    rw [Upgrader.received, List.take_of_length_le hle, hstream]
    exact emptyLine_render hform
  obtain ⟨d, hlast, hbefore, -⟩ := exists_first_complete ⟨_, hcomplete⟩
  have hall : peer.received (d + 1) = request.render := by
    rw [Upgrader.received, hstream] at hlast ⊢
    exact emptyLine_take hform hlast
  rw [← Nat.zero_add d] at hlast
  obtain ⟨httpHdr, hholds, hend, hrun⟩ := receive_ends fresh (holds_zero peer fresh)
    (fun j _ hj => hbefore j (by omega)) hlast
  rw [Nat.zero_add] at hholds hend
  refine ⟨d, httpHdr, ?_, fun fuel hfuel => (hrun fuel).trans (if_pos hfuel)⟩
  have hzero := zero_not_mem_lines (lines_render hform)
  obtain ⟨hstring, -⟩ := stringAt_spec hend (Nat.zero_le _)
  rw [hstring, List.drop_zero, ← chars_take hend, hholds.front, hall]
  exact congrArg Except.ok (chars_eq_self hzero)

/-- A request with two keys, of which the second one counts. -/
def twoKeys : UpgradeRequest where
  method := ascii "GET"
  target := ascii "/dime"
  major := ascii "1"
  minor := ascii "1"
  lines := [ascii "Host: localhost", ascii "Connection: keep-alive, Upgrade", ascii "Upgrade: websocket",
    ascii "Sec-WebSocket-Key: ", ascii "Sec-WebSocket-Key: dGhlIHNhbXBsZSBub25jZQ==",
    ascii "Sec-WebSocket-Version: 13"]

/-- The hash of the second key. -/
def sampleSha1 : Openssl where
  sha1 _ := [0xB3, 0x7A, 0x4F, 0x2C, 0xC0, 0x62, 0x4F, 0x16, 0x90, 0xF6, 0x46, 0x06, 0xCF, 0x38, 0x59,
    0x45, 0xB2, 0xBE, 0xC4, 0xEA]
  length_sha1 _ := rfl

def sampleAnswer : Bytes :=
  ascii "HTTP/1.1 101 Switching Protocols\r\nConnection: Upgrade\r\nUpgrade: websocket\r\n" ++
    ascii "Sec-WebSocket-Accept: s3pPLMBiTxaQ9kYGzzhZRbK+xOo=\r\n\r\n"

end Socket

end Dime
