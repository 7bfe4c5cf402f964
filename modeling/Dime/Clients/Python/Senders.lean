import Dime.Clients.Origins
import Dime.Clients.Python.Workspace

/-!
# Whose values a workspace has

In a run of the network, the values in the workspace of a Python client are those that the
clients have passed to their calls, under the same names and as they come out of the encoder of
the one and the decoder of the other.
-/

namespace Dime

open Dialogue Server

variable {V W : Type} {platform : Platform V W} {endpoint : ClientPtr → Endpoint V W}
  {jansson : Jansson Json} {loads : CString → Json} {history : List (Server × Action)}
  {srv : Server} {c : ClientPtr} {clnt : Client}

/-- One of the calls of a client passes a value under this name, and this is what the client makes
of it for a Python client that decodes it with `codec`. -/
def Endpoint.Encodes (platform : Platform V W) (codec : Python.Codec) (varname : String)
    (bindata : Bytes) : Endpoint V W → Prop
  | .python _ cs => ∃ x, (varname, x) ∈ cs.flatMap Python.Call.passed ∧
      platform.modules.dumps codec x = some bindata
  | .matlab cs => ∃ x, (varname, x) ∈ cs.flatMap Matlab.Call.passed ∧
      codec = .dimeb ∧ platform.matlab.dimebdumps x = some bindata
  | .javascript cs => ∃ x, (varname, x) ∈ cs.flatMap JavaScript.Call.passed ∧
      (codec = .dimeb ∧ platform.javascript.dimebdumps x = some bindata ∨
        codec = .json ∧ platform.javascript.jsondumps x = some bindata)

namespace Python

theorem ofName?_eq_some_iff {serialization : Json} {codec : Codec} :
    Codec.ofName? serialization = some codec ↔ serialization = .string (match codec with
      | .pickle => "pickle"
      | .dimeb => "dimeb"
      | .json => "json") := by
  constructor
  · intro h
    unfold Codec.ofName? at h
    split at h
    next name =>
      split at h
      next heq => obtain rfl := Option.some.inj h; rw [heq]
      split at h
      next heq => obtain rfl := Option.some.inj h; rw [heq]
      split at h
      next heq => obtain rfl := Option.some.inj h; rw [heq]
      next => cases h
    next => cases h
  · rintro rfl
    cases codec <;> rfl

/-- A Python client decodes what the other clients encode with the function for the same
serialization. -/
theorem encodes_of_passes {client : Endpoint V W} {varname : String} {serialization : Json}
    {bindata : Bytes} (h : client.Passes platform varname serialization bindata) {codec : Codec}
    (hcodec : Codec.ofName? serialization = some codec) :
    client.Encodes platform codec varname bindata := by
  cases client with
  | python useJson cs =>
      obtain ⟨x, hx, hencodes⟩ := h
      exact ⟨x, hx, hencodes codec hcodec⟩
  | matlab cs =>
      obtain ⟨x, hx, hencodes⟩ := h
      obtain rfl := ofName?_eq_some_iff.mp hcodec
      refine ⟨x, hx, ?_⟩
      simp only [Matlab.Encodes, Matlab.Obj.encode, platform.matlab.switchable_string] at hencodes
      cases codec with
      | dimeb =>
          cases hdumps : platform.matlab.dimebdumps x with
          | none => simp [hdumps] at hencodes
          | some bindata' => simpa [hdumps] using hencodes
      | pickle => simp at hencodes
      | json => simp at hencodes
  | javascript cs =>
      obtain ⟨x, hx, codec', hcodec', hencodes⟩ := h
      obtain rfl := ofName?_eq_some_iff.mp hcodec
      refine ⟨x, hx, ?_⟩
      cases codec with
      | pickle => cases hcodec'
      | dimeb =>
          obtain rfl : JavaScript.Codec.dimeb = codec' := Option.some.inj hcodec'
          exact .inl ⟨rfl, hencodes⟩
      | json =>
          obtain rfl : JavaScript.Codec.json = codec' := Option.some.inj hcodec'
          exact .inr ⟨rfl, hencodes⟩

end Python

end Dime
