import Mathlib.Data.UInt
import Dime.Foundation.CStrings
import Dime.Server.Calm
import Dime.Server.Compact
import Dime.Server.Run

/-!
# The error text of the server

The record of the server starts with an array for the text of the last error. A failing
handler copies a text of its own there and may append one that came from a client.
-/

namespace Dime

open CStrings

/-- `sizeof(srv->err)`. -/
def errSize : Nat := 81

/-- The characters of a text as a C string. -/
def cstring (text : String) : Bytes := chars text.toUTF8.data.toList

/-- `strncpy(srv->err, text, sizeof(srv->err))` and the NUL at the end of the array. The
record starts with the array. -/
def copyErr (text : String) (record : Bytes) : Except Misuse Bytes := do
  let record ← strncpy record 0 (cstring text) errSize
  store record (errSize - 1) 0

/-- A copy to which another text is appended, as far as `strncat` is told to. -/
def appendErr (text more : String) (record : Bytes) : Except Misuse Bytes := do
  let record ← strncpy record 0 (cstring text) errSize
  let err ← stringAt record (some 0)
  let record ← strncat record 0 (cstring more) (errSize - err.length)
  store record (errSize - 1) 0

/-- The errors that `join`, `leave`, `send` and `handshake` note in the record. -/
inductive Note where
  | unpack (text : String)
  | expectedString
  | alreadyInGroup (name : String)
  | notInGroup (name : String)
  | noSuchGroup (name : String)
  | errno
  deriving DecidableEq, Repr

namespace Note

def write : Note → Bytes → Except Misuse Bytes
  | unpack text => appendErr "JSON parsing error: " text
  | expectedString => copyErr "JSON parsing error: expected string"
  | alreadyInGroup name => appendErr "Client is already in group: " name
  | notInGroup name => appendErr "Client is not in group: " name
  | noSuchGroup name => appendErr "No such group exists: " name
  | errno => copyErr strerror

/-- What the server says, and what it repeats. -/
def parts : Note → String × String
  | unpack text => ("JSON parsing error: ", text)
  | expectedString => ("JSON parsing error: expected string", "")
  | alreadyInGroup name => ("Client is already in group: ", name)
  | notInGroup name => ("Client is not in group: ", name)
  | noSuchGroup name => ("No such group exists: ", name)
  | errno => (strerror, "")

/-- The text before it is cut. -/
def text (note : Note) : String := note.parts.1 ++ note.parts.2

/-- The number of its characters. -/
def length (note : Note) : Nat := (cstring note.parts.1).length + (cstring note.parts.2).length

end Note

/-- Writes to the array of the error text and to nothing behind it, and ends it. -/
def Confined (write : Bytes → Except Misuse Bytes) : Prop :=
  ∀ err rest, err.length = errSize →
    ∃ err', write (err ++ rest) = .ok (err' ++ rest) ∧ err'.length = errSize ∧ 0 ∈ err'

/-! ## The two ways to write -/

variable {text more : String} {err rest : Bytes}

theorem zero_not_mem_cstring (text : String) : 0 ∉ cstring text := zero_not_mem_chars _

theorem store_last (herr : err.length = errSize) (rest : Bytes) :
    ∃ err', store (err ++ rest) (errSize - 1) 0 = .ok (err' ++ rest) ∧ err'.length = errSize ∧
      0 ∈ err' := by
  have hlt : errSize - 1 < err.length := by rw [herr]; decide
  refine ⟨err.set (errSize - 1) 0, ?_, by rw [List.length_set, herr], List.mem_set hlt 0⟩
  rw [store, if_pos (by rw [List.length_append]; omega), List.set_append_left _ _ hlt]

/-- A text that fits is copied, and zeros behind it. -/
theorem strncpy_err (htext : (cstring text).length < errSize) (herr : err.length = errSize)
    (rest : Bytes) :
    strncpy (err ++ rest) 0 (cstring text) errSize =
      .ok (cstring text ++
        0 :: (List.replicate (errSize - 1 - (cstring text).length) 0 ++ rest)) := by
  have hfits : (cstring text).length ≤ err.length := by omega
  have hcopy := strncpy_append hfits rest
  have hzeros : errSize - (cstring text).length = errSize - 1 - (cstring text).length + 1 := by omega
  rwa [herr, hzeros, List.replicate_succ, List.cons_append] at hcopy

theorem copyErr_confined (htext : (cstring text).length < errSize) : Confined (copyErr text) := by
  intro err rest herr
  rw [copyErr, strncpy_err htext herr, ← List.cons_append, ← List.append_assoc]
  apply store_last
  rw [List.length_append, List.length_cons, List.length_replicate]
  omega

theorem appendErr_eq (htext : (cstring text).length < errSize) (herr : err.length = errSize)
    (rest : Bytes) :
    appendErr text more (err ++ rest) = (do
      let record ← strncat (cstring text ++
        0 :: (List.replicate (errSize - 1 - (cstring text).length) 0 ++ rest)) 0 (cstring more)
        (errSize - (cstring text).length)
      store record (errSize - 1) 0) := by
  rw [appendErr, strncpy_err htext herr]
  simp only [bind, Except.bind]
  rw [stringAt_append (zero_not_mem_cstring text)]

/-- Both texts fit with the NUL behind them. -/
theorem appendErr_confined (h : (cstring text).length + (cstring more).length < errSize) :
    Confined (appendErr text more) := by
  intro err rest herr
  have hroom : errSize - 1 - (cstring text).length =
      (cstring more).length + (errSize - 1 - (cstring text).length - (cstring more).length) := by omega
  rw [appendErr_eq (by omega) herr, hroom, List.replicate_add, List.append_assoc,
    strncat_append (zero_not_mem_cstring text)
      (by rw [List.take_of_length_le (by omega), List.length_replicate]),
    List.take_of_length_le (by omega)]
  simp only [bind, Except.bind]
  rw [← List.cons_append, ← List.append_assoc, ← List.append_assoc]
  apply store_last
  simp only [List.length_append, List.length_cons, List.length_replicate]
  omega

/-- The texts do not fit: the NUL goes to the byte behind the array. -/
theorem appendErr_overruns (htext : (cstring text).length < errSize)
    (h : errSize ≤ (cstring text).length + (cstring more).length) (herr : err.length = errSize)
    (flags : UInt8) (rest : Bytes) :
    ∃ err', appendErr text more (err ++ flags :: rest) = .ok (err' ++ 0 :: rest) ∧
      err'.length = errSize := by
  have htake : ((cstring more).take (errSize - (cstring text).length)).length =
      errSize - (cstring text).length := List.length_take_of_le (by omega)
  rw [appendErr_eq htext herr, List.append_cons (List.replicate _ _) flags rest,
    strncat_append (zero_not_mem_cstring text)
      (by rw [List.length_append, List.length_replicate, htake, List.length_singleton]; omega)]
  simp only [bind, Except.bind]
  rw [← List.append_assoc]
  have hfull : (cstring text ++ (cstring more).take (errSize - (cstring text).length)).length =
      errSize := by
    rw [List.length_append, htake]
    omega
  obtain ⟨err', hstore, hlength, -⟩ := store_last hfull (0 :: rest)
  exact ⟨err', hstore, hlength⟩

/-- In an array with nothing behind it there is no place for the NUL. -/
theorem appendErr_outside (htext : (cstring text).length < errSize)
    (h : errSize ≤ (cstring text).length + (cstring more).length) (herr : err.length = errSize) :
    appendErr text more (err ++ []) = .error .outside := by
  have htake : ((cstring more).take (errSize - (cstring text).length)).length =
      errSize - (cstring text).length := List.length_take_of_le (by omega)
  rw [appendErr_eq htext herr, List.append_nil,
    strncat_outside (zero_not_mem_cstring text) (by rw [List.length_replicate, htake]; omega)]
  rfl

theorem appendErr_confined_iff (htext : (cstring text).length < errSize) :
    Confined (appendErr text more) ↔
      (cstring text).length + (cstring more).length < errSize := by
  refine ⟨fun hconfined => ?_, appendErr_confined⟩
  by_contra hlong
  obtain ⟨err', hwrite, -⟩ := hconfined (List.replicate errSize 0) [] List.length_replicate
  rw [appendErr_outside htext (by omega) List.length_replicate] at hwrite
  cases hwrite

/-! ## The handlers -/

namespace Note

theorem length_fixed (note : Note) : (cstring note.parts.1).length < errSize := by
  have hliterals : ∀ text ∈ ["JSON parsing error: ", "JSON parsing error: expected string",
      "Client is already in group: ", "Client is not in group: ", "No such group exists: ", strerror],
      (cstring text).length < errSize := by decide +kernel
  apply hliterals
  cases note <;> simp [parts]

end Note

namespace Server

variable {jansson : Jansson Json} {srv srv' srv'' : Server} {c : ClientPtr} {alloc : Alloc}

/-- The error text is what it was or one of the notes. -/
def Noted (srv srv' : Server) : Prop := srv'.err = srv.err ∨ ∃ note : Note, srv'.err = note.text

theorem Noted.trans (h : srv.Noted srv') (h' : srv'.Noted srv'') : srv.Noted srv'' := by
  rcases h' with heq | hnote
  · rw [Noted, heq]
    exact h
  · exact .inr hnote

theorem pushTo_err {push : PushAlloc} {body : Json} {ret : Int}
    (h : srv.pushTo jansson push c body = .ok (ret, srv')) : srv'.err = srv.err := by
  obtain ⟨clnt, -, -, rfl⟩ := pushTo_eq_ok h
  rfl

theorem pushStrTo_err {write : Nat → Bool} {out : Outgoing} {jsonstr : CString} {bindata : Bytes}
    {ret : Int} (h : srv.pushStrTo write c out jsonstr bindata = .ok (ret, srv')) :
    srv'.err = srv.err := by
  obtain ⟨clnt, -, -, rfl⟩ := pushStrTo_eq_ok h
  rfl

theorem refuse_err {reply : ReplyAlloc} {text : String} {ret : Int}
    (h : srv.refuse jansson reply c text = .ok (ret, srv')) : srv'.err = text := by
  rw [refuse] at h
  dsimp only at h
  split at h
  · obtain ⟨⟨_, mid⟩, hpush, hrun⟩ := bind_eq_ok h
    cases hrun
    exact pushTo_err hpush
  · cases h
    rfl

theorem refuse_noted {reply : ReplyAlloc} (note : Note) {ret : Int}
    (h : srv.refuse jansson reply c note.text = .ok (ret, srv')) : srv.Noted srv' :=
  .inr ⟨note, refuse_err h⟩

theorem finish_noted {ret : Int} (h : srv.finish jansson alloc c = .ok (ret, srv')) :
    srv.Noted srv' := by
  obtain ⟨⟨_, mid⟩, hpush, hrun⟩ := bind_eq_ok h
  have hpushed := pushStrTo_err hpush
  dsimp only at hrun
  split at hrun
  · exact Noted.trans (.inl hpushed) (refuse_noted .errno hrun)
  · cases hrun
    exact .inl hpushed

/-- A note behind steps that keep the error text. -/
theorem noted_of_err (h : srv'.err = srv.err) : srv.Noted srv' := .inl h

theorem obtainGroup_err {i : Nat} {name : String} {found : Option GroupPtr}
    (h : srv.obtainGroup alloc i name = .ok (found, srv')) : srv'.err = srv.err := by
  obtain ⟨⟨group, name2clnt⟩, -, hrun⟩ := bind_eq_ok h
  cases group with
  | some g =>
      cases hrun
      rfl
  | none =>
      dsimp only at hrun
      split at hrun
      · cases hrun
        rfl
      split at hrun
      · cases hrun
        rfl
      split at hrun
      · cases hrun
        rfl
      · obtain ⟨⟨ret, name2clnt'⟩, -, hrun⟩ := bind_eq_ok hrun
        dsimp only at hrun
        split at hrun
        · cases hrun
          rfl
        · cases hrun
          rfl

theorem enter_err {i : Nat} {g : GroupPtr} {ok : Bool}
    (h : srv.enter alloc i c g = .ok (ok, srv')) : srv'.err = srv.err := by
  obtain ⟨clnt, -, hrun⟩ := bind_eq_ok h
  dsimp only at hrun
  split at hrun
  · cases hrun
    rfl
  · obtain ⟨group, -, hrun⟩ := bind_eq_ok hrun
    split at hrun
    · cases hrun
      rfl
    · cases hrun
      rfl

theorem joinName_noted {i : Nat} {v : Json} {ok : Bool}
    (h : srv.joinName jansson alloc c i v = .ok (ok, srv')) : srv.Noted srv' := by
  cases v with
  | string name =>
      obtain ⟨clnt, -, hrun⟩ := bind_eq_ok h
      obtain ⟨found, -, hrun⟩ := bind_eq_ok hrun
      cases found with
      | some entry =>
          obtain ⟨⟨_, final⟩, hrefuse, hlast⟩ := bind_eq_ok hrun
          cases hlast
          exact refuse_noted (.alreadyInGroup name) hrefuse
      | none =>
          obtain ⟨⟨group, mid⟩, hobtain, hrun⟩ := bind_eq_ok hrun
          have hmid := noted_of_err (obtainGroup_err hobtain)
          cases group with
          | none =>
              obtain ⟨⟨_, final⟩, hrefuse, hlast⟩ := bind_eq_ok hrun
              cases hlast
              exact hmid.trans (refuse_noted .errno hrefuse)
          | some g =>
              obtain ⟨⟨entered, mid'⟩, henter, hrun⟩ := bind_eq_ok hrun
              have hmid' := hmid.trans (noted_of_err (enter_err henter))
              cases entered with
              | true =>
                  cases hrun
                  exact hmid'
              | false =>
                  obtain ⟨⟨_, final⟩, hrefuse, hlast⟩ := bind_eq_ok hrun
                  cases hlast
                  exact hmid'.trans (refuse_noted .errno hrefuse)
  | null | bool | integer | real | array | object =>
      obtain ⟨⟨_, final⟩, hrefuse, hlast⟩ := bind_eq_ok h
      cases hlast
      exact refuse_noted .expectedString hrefuse

theorem leaveName_noted {i : Nat} {v : Json} {ok : Bool}
    (h : srv.leaveName jansson alloc c i v = .ok (ok, srv')) : srv.Noted srv' := by
  cases v with
  | string name =>
      obtain ⟨clnt, -, hrun⟩ := bind_eq_ok h
      obtain ⟨found, -, hrun⟩ := bind_eq_ok hrun
      cases found with
      | some entry =>
          obtain ⟨k, g, group⟩ := entry
          dsimp only at hrun
          split at hrun
          · cases hrun
            exact noted_of_err rfl
          · cases hrun
      | none =>
          obtain ⟨⟨_, final⟩, hrefuse, hlast⟩ := bind_eq_ok hrun
          cases hlast
          exact refuse_noted (.notInGroup name) hrefuse
  | null | bool | integer | real | array | object =>
      obtain ⟨⟨_, final⟩, hrefuse, hlast⟩ := bind_eq_ok h
      cases hlast
      exact refuse_noted .expectedString hrefuse

theorem eachName_noted {handle : Nat → Server → Json → Except Fault (Bool × Server)}
    (hhandle : ∀ i srv v ok srv', handle i srv v = .ok (ok, srv') → srv.Noted srv') {i : Nat}
    {vs : List Json} {ok : Bool} (h : eachName handle i vs srv = .ok (ok, srv')) : srv.Noted srv' := by
  induction vs generalizing i srv with
  | nil =>
      cases h
      exact noted_of_err rfl
  | cons v vs ih =>
      obtain ⟨⟨handled, mid⟩, hrun, hrest⟩ := bind_eq_ok h
      have hmid := hhandle _ _ _ _ _ hrun
      cases handled with
      | true => exact hmid.trans (ih hrest)
      | false =>
          cases hrest
          exact hmid

theorem notify_noted {i : Nat} {other : ClientPtr} {ok : Bool}
    (h : srv.notify jansson alloc i other = .ok (ok, srv')) : srv.Noted srv' := by
  obtain ⟨clnt, -, hrun⟩ := bind_eq_ok h
  split at hrun
  · split at hrun
    · obtain ⟨⟨_, mid⟩, hpush, hrest⟩ := bind_eq_ok hrun
      have hpushed := noted_of_err (pushTo_err hpush)
      dsimp only at hrest
      split at hrest
      · obtain ⟨⟨_, final⟩, hrefuse, hlast⟩ := bind_eq_ok hrest
        cases hlast
        exact hpushed.trans (refuse_noted .errno hrefuse)
      · obtain ⟨clnt', -, hlast⟩ := bind_eq_ok hrest
        cases hlast
        exact hpushed
    · obtain ⟨⟨_, final⟩, hrefuse, hlast⟩ := bind_eq_ok hrun
      cases hlast
      exact refuse_noted .errno hrefuse
  · cases hrun
    exact noted_of_err rfl

theorem enqueue_noted {p : MsgPtr} {i : Nat} {other : ClientPtr} {ok : Bool}
    (h : srv.enqueue jansson alloc c p i other = .ok (ok, srv')) : srv.Noted srv' := by
  obtain ⟨clnt, -, hrun⟩ := bind_eq_ok h
  cases hpush : clnt.queue.pushr (alloc.malloc i 0) p with
  | none =>
      rw [hpush] at hrun
      obtain ⟨msg, -, hrest⟩ := bind_eq_ok hrun
      obtain ⟨⟨_, final⟩, hrefuse, hlast⟩ := bind_eq_ok hrest
      cases hlast
      exact .inr ⟨.errno, refuse_err hrefuse⟩
  | some queue =>
      rw [hpush] at hrun
      obtain ⟨⟨told, mid⟩, hnotify, hrest⟩ := bind_eq_ok hrun
      have hnotified := notify_noted hnotify
      have hmid : srv.Noted mid := hnotified
      cases told with
      | true =>
          obtain ⟨msg, -, hlast⟩ := bind_eq_ok hrest
          cases hlast
          exact hmid
      | false =>
          cases hrest
          exact hmid

theorem sendAll_noted {p : MsgPtr} {i : Nat} {others : List ClientPtr} {ok : Bool}
    (h : sendAll jansson alloc c p i others srv = .ok (ok, srv')) : srv.Noted srv' := by
  induction others generalizing i srv with
  | nil =>
      cases h
      exact noted_of_err rfl
  | cons other rest ih =>
      obtain ⟨⟨queued, mid⟩, hrun, hrest⟩ := bind_eq_ok h
      have hmid := enqueue_noted hrun
      cases queued with
      | true => exact hmid.trans (ih hrest)
      | false =>
          cases hrest
          exact hmid

theorem reregister_err {i : Nat} {others : List ClientPtr} {ok : Bool}
    (h : reregister jansson alloc c i others srv = .ok (ok, srv')) : srv'.err = srv.err := by
  induction others generalizing i srv with
  | nil =>
      cases h
      rfl
  | cons other rest ih =>
      rw [reregister] at h
      split at h
      · obtain ⟨⟨_, mid⟩, hpush, hrun⟩ := bind_eq_ok h
        have hpushed := pushStrTo_err hpush
        dsimp only at hrun
        split at hrun
        · cases hrun
          exact hpushed
        · exact (ih hrun).trans hpushed
      · exact ih h

theorem negotiate_err {requested : Serialization} {ok : Bool}
    (h : srv.negotiate jansson alloc c requested = .ok (ok, srv')) : srv'.err = srv.err := by
  rw [negotiate] at h
  split at h
  · cases h
    rfl
  split at h
  · split at h
    · cases h
      rfl
    split at h
    · cases h
      rfl
    · obtain ⟨⟨ok', mid⟩, hrun, hrest⟩ := bind_eq_ok h
      have hmid := reregister_err hrun
      cases ok' with
      | true =>
          cases hrest
          exact hmid
      | false =>
          cases hrest
          exact hmid
  · cases h
    rfl

/-! ### The four commands -/

theorem handshake_noted {jsondata : Json} {ret : Int}
    (h : srv.handshake jansson alloc c jsondata = .ok (ret, srv')) : srv.Noted srv' := by
  rw [handshake] at h
  split at h
  · split at h
    · cases h
      exact noted_of_err rfl
    · obtain ⟨⟨ok, mid⟩, hrun, hrest⟩ := bind_eq_ok h
      have hmid := noted_of_err (negotiate_err hrun)
      dsimp only at hrest
      split at hrest
      · cases hrest
        exact hmid
      split at hrest
      · cases hrest
        exact hmid
      · obtain ⟨⟨_, final⟩, hpush, hlast⟩ := bind_eq_ok hrest
        have hpushed := hmid.trans (noted_of_err (pushTo_err hpush))
        dsimp only at hlast
        split at hlast
        · cases hlast
          exact hpushed
        · cases hlast
          exact hpushed
  · exact refuse_noted (.unpack _) h

/-- What `join` and `leave` have in common. -/
theorem names_noted {handle : Nat → Server → Json → Except Fault (Bool × Server)}
    (hhandle : ∀ i srv v ok srv', handle i srv v = .ok (ok, srv') → srv.Noted srv')
    {vs : List Json} {ret : Int}
    (h : (do
      let (ok, srv) ← eachName handle 0 vs srv
      if ok then srv.finish jansson alloc c else return (-1, srv)) = .ok (ret, srv')) :
    srv.Noted srv' := by
  obtain ⟨⟨ok, mid⟩, hrun, hrest⟩ := bind_eq_ok h
  have hmid := eachName_noted hhandle hrun
  cases ok with
  | true => exact hmid.trans (finish_noted hrest)
  | false =>
      cases hrest
      exact hmid

theorem join_noted {jsondata : Json} {ret : Int}
    (h : srv.join jansson alloc c jsondata = .ok (ret, srv')) : srv.Noted srv' := by
  rw [join] at h
  split at h
  · exact refuse_noted (.unpack _) h
  · exact names_noted (fun _ _ _ _ _ => joinName_noted) h

theorem leave_noted {jsondata : Json} {ret : Int}
    (h : srv.leave jansson alloc c jsondata = .ok (ret, srv')) : srv.Noted srv' := by
  rw [leave] at h
  split at h
  · exact refuse_noted (.unpack _) h
  · exact names_noted (fun _ _ _ _ _ => leaveName_noted) h

theorem send_noted {jsondata : Json} {bindata : Bytes} {ret : Int}
    (h : srv.send jansson alloc c jsondata bindata = .ok (ret, srv')) : srv.Noted srv' := by
  rw [send] at h
  split at h
  next => exact refuse_noted (.unpack _) h
  next name _ =>
    obtain ⟨⟨found, name2clnt⟩, -, hrun⟩ := bind_eq_ok h
    cases found with
    | none => exact .inr ⟨.noSuchGroup name, refuse_err hrun⟩
    | some g =>
        obtain ⟨group, -, hrun⟩ := bind_eq_ok hrun
        dsimp only at hrun
        split at hrun
        · exact .inr ⟨.noSuchGroup name, refuse_err hrun⟩
        split at hrun
        · exact .inr ⟨.errno, refuse_err hrun⟩
        split at hrun
        · exact .inr ⟨.errno, refuse_err hrun⟩
        · obtain ⟨⟨ok, mid⟩, hall, hrest⟩ := bind_eq_ok hrun
          have hsent := sendAll_noted hall
          have hmid : srv.Noted mid := hsent
          cases ok with
          | true =>
              obtain ⟨msg, -, hlast⟩ := bind_eq_ok hrest
              split at hlast
              · exact hmid.trans (finish_noted hlast)
              · cases hlast
          | false =>
              cases hrest
              exact hmid

/-- An error that one of the four commands leaves is one of the notes. -/
theorem commands_noted {jsondata : Json} {bindata : Bytes} {ret : Int}
    (h : srv.handshake jansson alloc c jsondata = .ok (ret, srv') ∨
      srv.join jansson alloc c jsondata = .ok (ret, srv') ∨
      srv.leave jansson alloc c jsondata = .ok (ret, srv') ∨
      srv.send jansson alloc c jsondata bindata = .ok (ret, srv')) : srv.Noted srv' := by
  rcases h with h | h | h | h
  · exact handshake_noted h
  · exact join_noted h
  · exact leave_noted h
  · exact send_noted h

end Server

/-! ## Which notes fit -/

/-- What `join`, `leave`, `send` and `handshake` note stays in the array of the error text,
which ends with a NUL then, if and only if the whole text has at most 80 characters. -/
theorem note_confined_iff (note : Note) : Confined note.write ↔ note.length ≤ 80 := by
  have hfixed := note.length_fixed
  have happend : Confined (appendErr note.parts.1 note.parts.2) ↔ note.length ≤ 80 := by
    rw [appendErr_confined_iff hfixed]
    exact Nat.lt_succ_iff
  cases note with
  | unpack | alreadyInGroup | notInGroup | noSuchGroup => exact happend
  | expectedString | errno =>
      refine iff_of_true (copyErr_confined hfixed) ?_
      exact Nat.lt_succ_iff.mp hfixed

def longName : String := String.ofList (List.replicate 53 'a')

/-- A client that joins a group of 53 characters twice clears the flags of the server. -/
theorem not_confined_longName : ∃ history srv,
    Server.Reaches (compactJansson []) history srv ∧
    srv.err = (Note.alreadyInGroup longName).text ∧
    (∃ err', (Note.alreadyInGroup longName).write (List.replicate errSize 0 ++ [5]) =
      .ok (err' ++ [0])) ∧
    ¬ Confined (Note.alreadyInGroup longName).write := by
  have hrun : (Server.script (compactJansson []) [.accept 3 false, .command 0 (.object
      [("command", .string "join"),
        ("name", .array [.string longName, .string longName])]) []]).map (fun result => result.2.err) =
      some (Note.alreadyInGroup longName).text := by decide +kernel
  obtain ⟨⟨history, srv⟩, hscript, herr⟩ := Option.map_eq_some_iff.mp hrun
  have hlength : (cstring longName).length = 53 := by decide +kernel
  have hwhole : (cstring "Client is already in group: ").length = 28 := by decide +kernel
  refine ⟨history, srv, Server.script_reaches _ hscript, herr, ?_, ?_⟩
  · have hfits : (cstring "Client is already in group: ").length < errSize := by rw [hwhole]; decide
    have hlong : errSize ≤ (cstring "Client is already in group: ").length +
        (cstring longName).length := by rw [hwhole, hlength]; decide
    have herr : (List.replicate errSize (0 : UInt8)).length = errSize := List.length_replicate
    obtain ⟨err', hwrite, -⟩ := appendErr_overruns hfits hlong herr 5 []
    exact ⟨err', hwrite⟩
  · intro hconfined
    rw [Note.write, appendErr_confined_iff (by rw [hwhole]; decide), hwhole, hlength] at hconfined
    exact absurd hconfined (by decide)

end Dime
