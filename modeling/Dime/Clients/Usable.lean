import Dime.Clients.Agreement
import Dime.Clients.Relays

/-!
# Serializations that can be used

Which clients have an encoder and a decoder for the serialization that they have been
told to use. A Matlab client has neither for json, which the server never gives up.
-/

namespace Dime

open Dialogue Server

/-- The serialization that a client has been told to use: that of the reply to its handshake,
which is the first message apart from those that make clients switch, or that of such a
message behind it. -/
def current? (sent : List Outgoing) : Option Json :=
  match sent.dropWhile (· = .json reregisterMeta) with
  | .json reply :: rest =>
      if .json reregisterMeta ∈ rest then reregisterMeta.get? "serialization"
      else reply.get? "serialization"
  | _ => none

theorem Told.current {sent : List Outgoing} {serialization : Serialization}
    (h : Told sent serialization) : current? sent = some (.string serialization.label) := by
  obtain ⟨_, before, name, after, rfl, hbefore, _, hlabel⟩ := h
  have hdrop : (before ++ .json (handshakeReply name false) :: after).dropWhile
      (fun out => decide (out = .json reregisterMeta)) =
      .json (handshakeReply name false) :: after := by
    rw [List.dropWhile_append_of_pos fun out hmem => by simp [hbefore out hmem]]
    exact List.dropWhile_cons_of_neg (by simp [handshakeReply, reregisterMeta])
  rw [current?, hdrop, hlabel]
  by_cases hmem : Outgoing.json reregisterMeta ∈ after
  · simp only [if_pos hmem]
    rfl
  · simp only [if_neg hmem]
    rfl

namespace Matlab.Obj

variable {V : Type} (rt : Runtime V)

/-- The encoder for a serialization, if the `switch` of `send_r` has a case for it. -/
def encoder (serialization : Json) : Option (V → Option Bytes) :=
  if serialization = .string "matlab" then some rt.getByteStreamFromArray
  else if serialization = .string "dimeb" then some rt.dimebdumps
  else none

/-- `encode` fails unless there is an encoder, and it encodes the value. -/
theorem encode_eq_ok {serialization : Json} {x : V} {bindata : Bytes} :
    encode rt ⟨serialization⟩ x = .ok bindata ↔
      rt.switchable serialization = true ∧
        ∃ encode, encoder rt serialization = some encode ∧ encode x = some bindata := by
  unfold encode encoder
  cases hswitchable : rt.switchable serialization with
  | false => simp
  | true =>
      by_cases hmatlab : serialization = .string "matlab"
      · cases hx : rt.getByteStreamFromArray x <;> simp [hmatlab, hx]
      · by_cases hdimeb : serialization = .string "dimeb"
        · cases hx : rt.dimebdumps x <;> simp [hdimeb, hx]
        · simp [hmatlab, hdimeb]

end Matlab.Obj

namespace Endpoint

variable {V W : Type} (platform : Platform V W)

/-- The implementation has an encoder for a serialization. -/
def encodes : Endpoint V W → Json → Bool
  | .python .., serialization => (Python.Codec.ofName? serialization).isSome
  | .matlab _, serialization => (Matlab.Obj.encoder platform.matlab serialization).isSome
  | .javascript _, serialization => (JavaScript.Codec.ofName? (some serialization)).isSome

variable {platform}

/-- Of the serializations that suit a client, it can use all but one. -/
theorem usable_iff {endpoint : Endpoint V W} {current : Serialization}
    (hsuits : current.Suits endpoint.serialization) :
    (endpoint.encodes platform (.string current.label) = true ∧
      endpoint.decodes platform (.string current.label) = true) ↔
    ¬ (current = .json ∧ ∃ calls, endpoint = .matlab calls) := by
  cases endpoint with
  | python useJson calls =>
      simp only [reduceCtorEq, exists_false, and_false, not_false_eq_true, iff_true]
      rcases hsuits with hasked | rfl | rfl
      · cases useJson with
        | true =>
            cases hasked
            exact ⟨rfl, rfl⟩
        | false =>
            cases hasked
            exact ⟨rfl, rfl⟩
      · exact ⟨rfl, rfl⟩
      · exact ⟨rfl, rfl⟩
  | matlab calls =>
      rcases hsuits with hasked | rfl | rfl
      · cases hasked
        exact ⟨fun _ hbad => (by cases hbad.1), fun _ => ⟨rfl, rfl⟩⟩
      · exact ⟨fun _ hbad => (by cases hbad.1), fun _ => ⟨rfl, rfl⟩⟩
      · refine ⟨fun husable => ?_, fun hnot => absurd ⟨rfl, calls, rfl⟩ hnot⟩
        have hnone : (Matlab.Obj.encoder platform.matlab (.string Serialization.json.label)).isSome =
            true := husable.1
        simp [Matlab.Obj.encoder, Serialization.label, Serialization.name] at hnone
  | javascript calls =>
      simp only [reduceCtorEq, exists_false, and_false, not_false_eq_true, iff_true]
      rcases hsuits with hasked | rfl | rfl
      · cases hasked
        exact ⟨rfl, rfl⟩
      · exact ⟨rfl, rfl⟩
      · exact ⟨rfl, rfl⟩

end Endpoint

/-- Every handshaken client can encode and decode what it has been told to use, if and only if
there is no Matlab client among them where the first handshake has asked for json. -/
theorem serialization_usable_iff {V W : Type} {platform : Platform V W}
    {endpoint : ClientPtr → Endpoint V W} {jansson : Jansson Json} {loads : CString → Json}
    {history : List (Server × Action)} {srv : Server} (h : Reaches jansson history srv)
    (hdriven : Driven platform endpoint jansson loads history) :
    (∀ c clnt, srv.clnts.cells c = some clnt → handled history c ≠ [] →
      ∃ serialization, current? clnt.sent = some serialization ∧
        (endpoint c).encodes platform serialization = true ∧
        (endpoint c).decodes platform serialization = true) ↔
    ¬ (asked history = some "json" ∧ ∃ c clnt calls, srv.clnts.cells c = some clnt ∧
      handled history c ≠ [] ∧ endpoint c = .matlab calls) := by
  have hlinked := h.linked hdriven
  obtain ⟨hunset, hset⟩ := h.asks hdriven
  have hcurrent : ∀ c clnt, srv.clnts.cells c = some clnt → handled history c ≠ [] →
      current? clnt.sent = some (.string srv.serialization.label) :=
    fun c clnt hc hne => (hlinked.told c clnt hc hne).current
  constructor
  · rintro husable ⟨hjson, c, clnt, calls, hc, hne, hmatlab⟩
    obtain ⟨serialization, hserialization, hencodes, hdecodes⟩ := husable c clnt hc hne
    rw [hcurrent c clnt hc hne] at hserialization
    cases hserialization
    exact (Endpoint.usable_iff (hlinked.suits c clnt hc hne)).mp ⟨hencodes, hdecodes⟩
      ⟨(hset _ hjson).2.mpr rfl, calls, hmatlab⟩
  · intro hnot c clnt hc hne
    refine ⟨_, hcurrent c clnt hc hne, (Endpoint.usable_iff (hlinked.suits c clnt hc hne)).mpr ?_⟩
    rintro ⟨hjson, calls, hmatlab⟩
    refine hnot ⟨?_, c, clnt, calls, hc, hne, hmatlab⟩
    cases hasked : asked history with
    | none =>
        rw [hunset hasked] at hjson
        cases hjson
    | some name => rw [(hset name hasked).2.mp hjson]

/-! ### Two clients -/

def plainPlatform : Platform Unit Unit := ⟨4, plainModules, plainMatlab, plainJavaScript⟩

/-- Two clients connect, and the first is the first to shake hands. -/
def twoHandshakes (first second : String) : List Action :=
  [.accept 3 false, .accept 4 false, .command 0 (Request.handshake first).jsondata [],
    .command 1 (Request.handshake second).jsondata []]

/-- A client, and another one. -/
def pair (first second : Endpoint Unit Unit) (c : ClientPtr) : Endpoint Unit Unit :=
  if c = 0 then first else second

/-- A Python client and a Matlab client use dimeb. -/
theorem serialization_usable_dimeb : ∃ history srv, Reaches (compactJansson []) history srv ∧
    Driven plainPlatform (pair (.python false []) (.matlab [])) (compactJansson [])
      (compactLoads []) history ∧ srv.serialization = .dimeb ∧
    ∀ c clnt, srv.clnts.cells c = some clnt → handled history c ≠ [] →
      ∃ serialization, current? clnt.sent = some serialization ∧
        (pair (.python false []) (.matlab []) c).encodes plainPlatform serialization = true ∧
        (pair (.python false []) (.matlab []) c).decodes plainPlatform serialization = true := by
  have hscript : (script (compactJansson []) (twoHandshakes "pickle" "matlab")).map
      (fun result : List (Server × Action) × Server =>
        (decide (Driven plainPlatform (pair (.python false []) (.matlab [])) (compactJansson [])
          (compactLoads []) result.1), result.2.serialization, asked result.1)) =
      some (true, .dimeb, some "pickle") := by decide +kernel
  obtain ⟨⟨history, srv⟩, hrun, hvalue⟩ := Option.map_eq_some_iff.mp hscript
  simp only [Prod.mk.injEq, decide_eq_true_iff] at hvalue
  obtain ⟨hdriven, hdimeb, hasked⟩ := hvalue
  have h := script_reaches _ hrun
  refine ⟨history, srv, h, hdriven, hdimeb, (serialization_usable_iff h hdriven).mpr ?_⟩
  rintro ⟨hjson, _⟩
  rw [hasked] at hjson
  exact absurd hjson (by decide)

/-- A Matlab client that comes after a JavaScript client is told to use json, for which it
has no encoder. -/
theorem serialization_unusable : ∃ history srv clnt, Reaches (compactJansson []) history srv ∧
    Driven plainPlatform (pair (.javascript []) (.matlab [])) (compactJansson [])
      (compactLoads []) history ∧
    srv.clnts.cells 1 = some clnt ∧ handled history 1 ≠ [] ∧
    current? clnt.sent = some (.string "json") ∧
    ¬ ∃ serialization, current? clnt.sent = some serialization ∧
      (pair (.javascript []) (.matlab []) 1).encodes plainPlatform serialization = true ∧
      (pair (.javascript []) (.matlab []) 1).decodes plainPlatform serialization = true := by
  have hscript : (script (compactJansson []) (twoHandshakes "json" "matlab")).map
      (fun result : List (Server × Action) × Server =>
        (decide (Driven plainPlatform (pair (.javascript []) (.matlab [])) (compactJansson [])
          (compactLoads []) result.1), (handled result.1 1).length,
          (result.2.clnts.cells 1).map fun clnt => current? clnt.sent)) =
      some (true, 1, some (some (.string "json"))) := by decide +kernel
  obtain ⟨⟨history, srv⟩, hrun, hvalue⟩ := Option.map_eq_some_iff.mp hscript
  simp only [Prod.mk.injEq, decide_eq_true_iff] at hvalue
  obtain ⟨hdriven, hhandled, hclnt⟩ := hvalue
  obtain ⟨clnt, hc, hcurrent⟩ := Option.map_eq_some_iff.mp hclnt
  refine ⟨history, srv, clnt, script_reaches _ hrun, hdriven, hc,
    List.ne_nil_of_length_pos (by rw [hhandled]; decide), hcurrent, ?_⟩
  rintro ⟨serialization, hserialization, hencodes, _⟩
  rw [hcurrent] at hserialization
  cases hserialization
  revert hencodes
  decide

end Dime
