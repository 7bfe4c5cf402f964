import Dime.Clients.TopUp

/-!
# What the clients collect

The three `sync_r` at a server whose queue consists of variables. The Python client
asks again where it has passed over messages. The other two fail there.
-/

namespace Dime

open Dialogue

/-! ## Python -/

namespace Python

variable (modules : Modules)

def decoders : Decoders Value := fun name => (Codec.ofName? (.string name)).map modules.loads

/-- Variables as a `dict`. -/
def dict (entries : List (String × Value)) : List (Value × Value) :=
  entries.map fun entry => (asKey (.string entry.1), entry.2)

theorem codePoint_injective : Function.Injective codePoint := by
  intro c d h
  have hval : (codePoint c).val = (codePoint d).val := congrArg Fin.val h
  exact Char.toNat_inj.mp hval

theorem keyEq_asKey (s t : String) :
    (asKey (.string s)).keyEq (asKey (.string t)) = decide (s = t) := by
  rw [asKey, asKey, Value.keyEq_str, decide_eq_decide]
  rw [(List.map_injective_iff.mpr codePoint_injective).eq_iff, String.toList_inj]

theorem setitem_dict (varname : String) (x : Value) (entries : List (String × Value)) :
    DimeClient.setitem (asKey (.string varname)) x (dict entries) =
      dict (Association.insert varname x entries) := by
  have hhashable : (asKey (.string varname)).hashable = true := rfl
  have hany : (dict entries).any (fun item => item.1.keyEq (asKey (.string varname))) =
      entries.any fun entry => entry.1 = varname := by
    simp [dict, keyEq_asKey, Function.comp_def]
  unfold DimeClient.setitem Value.setitem Association.insert
  rw [if_pos hhashable, hany]
  split
  · rw [Option.getD_some]
    simp only [dict, List.map_map]
    refine List.map_congr_left ?_
    intro entry _
    simp only [Function.comp_apply, keyEq_asKey, decide_eq_true_eq]
    split <;> simp_all
  · rw [Option.getD_some]
    simp [dict]

theorem update_dict (entries more : List (String × Value)) :
    DimeClient.update (dict entries) (dict more) = dict (Association.update entries more) := by
  induction more generalizing entries with
  | nil => rfl
  | cons entry more ih =>
      have hstep : DimeClient.update (dict entries) (dict (entry :: more)) =
          DimeClient.update
            (DimeClient.setitem (asKey (.string entry.1)) entry.2 (dict entries)) (dict more) := rfl
      rw [hstep, setitem_dict, ih]
      rfl

/-- A message with a serialization of any kind, and the name of a variable if it is one of
the three. -/
structure Tagged (message : Message) : Prop where
  status : message.jsondata.get? "status" = none
  serialization : (message.jsondata.get? "serialization").isSome
  varname : supports (decoders modules) message = true →
    message.jsondata.get? "varname" = some (.string (text message "varname"))

theorem tagged_of_isVariable {message : Message} (h : IsVariable message) :
    Tagged modules message :=
  ⟨h.status, by rw [h.serialization]; rfl, fun _ => h.varname⟩

/-- The serialization that is looked up is that in the message. -/
theorem ofName?_text {message : Message} {tag : Json}
    (h : message.jsondata.get? "serialization" = some tag) :
    Codec.ofName? (.string (text message "serialization")) = Codec.ofName? tag := by
  unfold text
  rw [h]
  cases tag <;> rfl

/-- The loop keeps every variable in one of the three serializations. -/
theorem judges : Judges DimeClient.listener (DimeClient.judge modules) (decoders modules) dict
    (Tagged modules) fun _ => True := by
  constructor
  · intro message htagged
    simp [Listener.hearing, DimeClient.listener, isMeta, htagged.status]
  · intro message htagged hunsupported
    obtain ⟨tag, htag⟩ := Option.isSome_iff_exists.mp htagged.serialization
    have hnone : Codec.ofName? tag = none := by
      rw [← ofName?_text htag]
      simpa [supports, decoders] using hunsupported
    simp [DimeClient.judge, htagged.status, getitem, htag, hnone]
  · intro message x htagged hvalue _
    obtain ⟨tag, htag⟩ := Option.isSome_iff_exists.mp htagged.serialization
    have hvarname := htagged.varname (supports_of_valueOf hvalue)
    obtain ⟨loads, hloads, hx⟩ := Option.bind_eq_some_iff.mp hvalue
    obtain ⟨codec, hcodec, rfl⟩ := Option.map_eq_some_iff.mp hloads
    rw [ofName?_text htag] at hcodec
    refine ⟨_, ?_, setitem_dict _ x⟩
    have hhashable : (asKey (.string (text message "varname"))).hashable = true := rfl
    simp [DimeClient.judge, htagged.status, getitem, htag, hvarname, hcodec, hx, hhashable]

end Python

/-! ## Matlab -/

namespace Matlab

variable {V : Type} (rt : Runtime V)

def decoders : Decoders V := fun name => Obj.decoder rt (.string name)

/-- A name that can be one of a field. -/
def ValidName (name : String) : Prop := (rt.fieldName (.string name)).isSome

variable {rt} in
/-- The loop keeps a variable in one of the two serializations, under a valid name. -/
theorem judges (hfield : ∀ s t, rt.fieldName (.string s) = some t → t = s) :
    Judges (Obj.listener rt) (Obj.judge rt) (decoders rt) id IsVariable (ValidName rt) := by
  constructor
  · intro message hvariable
    simp [Listener.hearing, Obj.listener, isMeta, hvariable.status]
  · intro message hvariable hunsupported
    have hnone : Obj.decoder rt (.string (text message "serialization")) = none := by
      simpa [supports, decoders] using hunsupported
    simp [Obj.judge, getfield, hvariable.varname, hvariable.serialization, rt.switchable_string, hnone]
  · intro message x hvariable hvalue hvalid
    obtain ⟨loads, hloads, hx⟩ := Option.bind_eq_some_iff.mp hvalue
    obtain ⟨name, hname⟩ := Option.isSome_iff_exists.mp hvalid
    obtain rfl := hfield _ _ hname
    have hloads' : Obj.decoder rt (.string (text message "serialization")) = some loads := hloads
    refine ⟨Obj.setfield (text message "varname") x, ?_, fun _ => rfl⟩
    simp [Obj.judge, getfield, hvariable.varname, hvariable.serialization, rt.switchable_string,
      hloads', hx, hname]

theorem not_ends {message : Message} (hvariable : IsVariable message) :
    ¬ Ends (Obj.listener rt) (Obj.judge rt) message := by
  intro hends
  have hfinish := hends.2
  unfold Obj.judge at hfinish
  rw [hvariable.varname] at hfinish
  dsimp only at hfinish
  split at hfinish
  · cases hfinish
  · split at hfinish
    · cases hfinish
    · split at hfinish
      · cases hfinish
      · split at hfinish <;> cases hfinish

/-- A variable that is kept has a valid name. -/
theorem validName_of_passes {message : Message} (hvariable : IsVariable message)
    (hpasses : Passes (Obj.listener rt) (Obj.judge rt) message)
    (hsupports : supports (decoders rt) message = true) : ValidName rt (text message "varname") := by
  have hhears : (Obj.listener rt).hearing message = .plain := by
    simp [Listener.hearing, Obj.listener, isMeta, hvariable.status]
  obtain ⟨loads, hloads⟩ := Option.isSome_iff_exists.mp hsupports
  have hloads' : Obj.decoder rt (.string (text message "serialization")) = some loads := hloads
  by_contra hinvalid
  have hname : rt.fieldName (.string (text message "varname")) = none :=
    Option.not_isSome_iff_eq_none.mp hinvalid
  simp [Passes, hhears, Obj.judge, getfield, hvariable.varname, hvariable.serialization,
    rt.switchable_string, hloads', hname] at hpasses

section

variable {Env : Type} {answer : Env → Message → Env × List Message} {queue : Env → List Message}
  {good : Env → Prop} {env : Env} {fuel : Nat} {n : Int64}

/-- The method returns what it is to exactly if none of the first `n` messages is in
another serialization, and the names are valid. -/
theorem collects_iff (hfield : ∀ s t, rt.fieldName (.string s) = some t → t = s)
    (hserves : Serves answer queue good) (hgood : good env) (hfuel : (queue env).length < fuel)
    (hlen : (queue env).length < 2 ^ 64) (hcarries : ∀ message ∈ queue env, IsVariable message)
    (hdecodes : Decodes (decoders rt) (queue env)) (self : Obj) :
    Collects (decoders rt) id queue env n (run answer (Obj.sync_r rt (fuel + 1) n) self env []) ↔
      (0 < n.toInt →
        ∀ message ∈ (queue env).take n.toInt.toNat, supports (decoders rt) message = true) ∧
      ∀ message ∈ (queue env).take (syncCount n), supports (decoders rt) message = true →
        ValidName rt (text message "varname") := by
  have hsync : Obj.sync_r rt (fuel + 1) n = syncWith ((Obj.listener rt).recv fuel) (Obj.judge rt) fuel
      [] (fun _ n => (Obj.sync_r rt fuel n).bind fun _ => .raise "Not enough input arguments") n := rfl
  have hagain : ∀ (vars : List (String × V)) n self env inbox (result : List (String × V)),
      (run answer ((Obj.sync_r rt fuel n).bind fun _ => .raise "Not enough input arguments") self env
        inbox).outcome ≠ .done result := by
    intro vars n self env inbox result hdone
    obtain ⟨a, _, hrun⟩ := done_of_bind hdone
    rw [hrun] at hdone
    cases hdone
  rw [hsync]
  by_cases hnames : ∀ message ∈ (queue env).take (syncCount n),
      supports (decoders rt) message = true → ValidName rt (text message "varname")
  · have hfits : Fits (decoders rt) IsVariable (ValidName rt) ((queue env).take (syncCount n)) :=
      ⟨fun message hmem => hcarries message (List.mem_of_mem_take hmem),
        fun message hmem => hdecodes message (List.mem_of_mem_take hmem), hnames⟩
    rw [and_iff_left hnames]
    exact (judges hfield).collects_round_iff hagain hserves (ends_statusOk rt) hgood hfuel hfuel hlen
      hfits self
  · refine iff_of_false ?_ fun h => hnames h.2
    intro hcollects
    obtain ⟨entries, hdone, _⟩ := hcollects.returns
    have hstops : ∃ message ∈ (queue env).take (syncCount n),
        ¬ Passes (Obj.listener rt) (Obj.judge rt) message := by
      by_contra hall
      push Not at hall
      exact hnames fun message hmem =>
        validName_of_passes rt (hcarries message (List.mem_of_mem_take hmem)) (hall message hmem)
    exact hserves.not_done hgood hstops
      (fun message hmem => not_ends rt (hcarries message (List.mem_of_mem_take hmem))) self [] _ hdone

end

end Matlab

/-! ## JavaScript -/

namespace JavaScript

variable {V : Type} (rt : Runtime V)

def Runtime.loads : Codec → Bytes → Option V
  | .dimeb => rt.dimebloads
  | .json => rt.jsonloads

def decoders : Decoders V := fun name => (Codec.ofName? (some (.string name))).map rt.loads

variable {rt} in
/-- The loop keeps a variable in one of the two serializations, but not as `__proto__`. -/
theorem judges (hkey : ∀ s, rt.propertyKey (.string s) = some s) :
    Judges (listener rt) (DimeClient.judge rt) (decoders rt) id IsVariable
      fun name => name ≠ "__proto__" := by
  constructor
  · intro message _
    rfl
  · intro message hvariable hunsupported
    have hnone : Codec.ofName? (some (.string (text message "serialization"))) = none := by
      simpa [supports, decoders] using hunsupported
    simp [DimeClient.judge, hvariable.status, hvariable.serialization, hnone]
  · intro message x hvariable hvalue hvalid
    obtain ⟨decode, hdecode, hx⟩ := Option.bind_eq_some_iff.mp hvalue
    obtain ⟨codec, hcodec, rfl⟩ := Option.map_eq_some_iff.mp hdecode
    refine ⟨DimeClient.setProperty (text message "varname") x, ?_, fun _ => if_neg hvalid⟩
    cases codec with
    | dimeb =>
        have hx' : rt.dimebloads message.bindata = some x := hx
        simp [DimeClient.judge, hvariable.status, hvariable.serialization, hcodec, hx',
          DimeClient.varname, hvariable.varname, hkey]
    | json =>
        have hx' : rt.jsonloads message.bindata = some x := hx
        simp [DimeClient.judge, hvariable.status, hvariable.serialization, hcodec, hx',
          DimeClient.varname, hvariable.varname, hkey]

theorem passes_of_variable (hkey : ∀ s, rt.propertyKey (.string s) = some s) {message : Message}
    (hvariable : IsVariable message)
    (hdecodes : supports (decoders rt) message = true → (valueOf (decoders rt) message).isSome) :
    Passes (listener rt) (DimeClient.judge rt) message := by
  cases hsupports : supports (decoders rt) message with
  | false =>
      have hskip := (judges hkey).skips message hvariable hsupports
      simp [Passes, hearing_plain, hskip]
  | true =>
      obtain ⟨x, hx⟩ := Option.isSome_iff_exists.mp (hdecodes hsupports)
      obtain ⟨decode, hdecode, hx⟩ := Option.bind_eq_some_iff.mp hx
      obtain ⟨codec, hcodec, rfl⟩ := Option.map_eq_some_iff.mp hdecode
      cases codec with
      | dimeb =>
          have hx' : rt.dimebloads message.bindata = some x := hx
          simp [Passes, hearing_plain, DimeClient.judge, hvariable.status, hvariable.serialization,
            hcodec, hx', DimeClient.varname, hvariable.varname, hkey]
      | json =>
          have hx' : rt.jsonloads message.bindata = some x := hx
          simp [Passes, hearing_plain, DimeClient.judge, hvariable.status, hvariable.serialization,
            hcodec, hx', DimeClient.varname, hvariable.varname, hkey]

/-- `__proto__` is not among the names that are kept. -/
theorem lookup_proto (messages : List Message) {vars : List (String × V)}
    (hvars : Association.lookup "__proto__" vars = none) :
    Association.lookup "__proto__" (messages.foldl
      (fun vars message => kept (listener rt) (DimeClient.judge rt) message vars) vars) = none := by
  induction messages generalizing vars with
  | nil => exact hvars
  | cons message messages ih =>
      apply ih
      change Association.lookup "__proto__" (kept _ _ message vars) = none
      unfold kept
      split
      next f _ hjudge =>
        -- the loop keeps a variable by `setProperty`
        have hset : ∃ name x, f = DimeClient.setProperty name x := by
          unfold DimeClient.judge at hjudge
          split at hjudge
          · split at hjudge <;> cases hjudge
          · split at hjudge
            · cases hjudge
            · split at hjudge
              · cases hjudge
                exact ⟨_, _, rfl⟩
              · cases hjudge
        obtain ⟨name, x, rfl⟩ := hset
        by_cases hname : name = "__proto__"
        · rw [DimeClient.setProperty, if_pos hname]
          exact hvars
        · have hinsert : DimeClient.setProperty name x vars = Association.insert name x vars :=
            if_neg hname
          rw [hinsert, Association.lookup_insert, if_neg fun h => hname h.symm]
          exact hvars
      next => exact hvars

section

variable {Env : Type} {answer : Env → Message → Env × List Message} {queue : Env → List Message}
  {good : Env → Prop} {env : Env} {fuel : Nat} {n : Int64}

/-- The method returns what it is to exactly if none of the first `n` messages is in
another serialization, and no variable is called `__proto__`. -/
theorem collects_iff (hkey : ∀ s, rt.propertyKey (.string s) = some s)
    (hserves : Serves answer queue good) (hgood : good env) (hfuel : (queue env).length < fuel)
    (hlen : (queue env).length < 2 ^ 64) (hcarries : ∀ message ∈ queue env, IsVariable message)
    (hdecodes : Decodes (decoders rt) (queue env)) {self : DimeClient} (hself : self.rejected = none) :
    Collects (decoders rt) id queue env n (run answer (DimeClient.sync_r rt fuel n) self env []) ↔
      (0 < n.toInt →
        ∀ message ∈ (queue env).take n.toInt.toNat, supports (decoders rt) message = true) ∧
      ∀ message ∈ (queue env).take (syncCount n), supports (decoders rt) message = true →
        text message "varname" ≠ "__proto__" := by
  have hconnected : run answer DimeClient.connected self env [] = ⟨.done (), self, env, [], []⟩ := by
    simp [DimeClient.connected, Prog.self, Prog.bind, run, hself]
  have hsync : run answer (DimeClient.sync_r rt fuel n) self env [] =
      run answer (syncWith ((listener rt).recv (fuel + 1)) (DimeClient.judge rt) fuel (id [])
        (fun _ _ => Prog.raise "self.sync_r is not a function") n) self env [] := by
    unfold DimeClient.sync_r
    rw [Prog.bind_eq, run_bind_done hconnected, Ended.after_nil, recv_listener]
    rfl
  have hfuel' : (queue env).length < fuel + 1 := Nat.lt_succ_of_lt hfuel
  have hagain : ∀ (vars : List (String × V)) (n : Int64) self env inbox result,
      (run answer ((fun _ _ => Prog.raise "self.sync_r is not a function" :
        List (String × V) → Int64 → Method (List (String × V))) vars n) self env inbox).outcome ≠
          .done result := by
    intro vars n self env inbox result h
    cases h
  have hround := fun hfits => (judges hkey).collects_round_iff (n := n) hagain hserves
    (ends_statusOk rt) hgood hfuel' hfuel hlen hfits self
  rw [hsync]
  by_cases hnames : ∀ message ∈ (queue env).take (syncCount n),
      supports (decoders rt) message = true → text message "varname" ≠ "__proto__"
  · rw [and_iff_left hnames]
    exact hround ⟨fun message hmem => hcarries message (List.mem_of_mem_take hmem),
      fun message hmem => hdecodes message (List.mem_of_mem_take hmem), hnames⟩
  · refine iff_of_false ?_ fun h => hnames h.2
    intro hcollects
    obtain ⟨entries, hdone, _, hvalues⟩ := hcollects.returns
    push Not at hnames
    obtain ⟨message, hmem, hsupports, hname⟩ := hnames
    have hdecodes' : Decodes (decoders rt) ((queue env).take (syncCount n)) :=
      fun message hmem => hdecodes message (List.mem_of_mem_take hmem)
    have hpasses : ∀ message ∈ (queue env).take (syncCount n),
        Passes (listener rt) (DimeClient.judge rt) message := fun message hmem =>
      passes_of_variable rt hkey (hcarries message (List.mem_of_mem_take hmem)) (hdecodes' message hmem)
    rw [hserves.run_exchange (ends_statusOk rt) hgood hfuel' hfuel hpasses, merge] at hdone
    split at hdone
    · cases hdone
    · cases hdone
      have hwanted : message ∈ wanted (decoders rt) (queue env) n := mem_wanted_of_mem_take hmem
      have hsome := lastValue_isSome (hdecodes.mono fun _ => mem_of_mem_wanted) hwanted hsupports
      rw [hname, ← hvalues "__proto__", lookup_proto rt _ rfl] at hsome
      cases hsome

end

end JavaScript

open Server

/-- At a server whose queue for a client consists of variables, the `sync_r` of Python
returns the last value of each variable among the first `n` that the client supports, and
removes nothing behind them. The `sync_r` of Matlab and that of JavaScript do this for
their own serializations if and only if none of the first `n` messages is in another one,
unless `n` is not positive, and the variables can be named in the result. The number of
messages in a queue is a `size_t`. -/
theorem sync_r_results {jansson : Jansson Json} {loads : CString → Json}
    {history : List (Server × Action)} {srv : Server} (h : Reaches jansson history srv)
    {c : ClientPtr} {clnt : Client} (hc : srv.clnts.cells c = some clnt)
    (hok : loads statusOkText = statusOkMessage.jsondata)
    (hlen : (srv.queueOf loads c).length < 2 ^ 64)
    (hcarries : ∀ message ∈ srv.queueOf loads c, IsVariable message)
    {V W : Type} (modules : Python.Modules) (rt : Matlab.Runtime V) (rt' : JavaScript.Runtime W)
    (hfield : ∀ s t, rt.fieldName (.string s) = some t → t = s)
    (hkey : ∀ s, rt'.propertyKey (.string s) = some s) (n : Int64) (fuel : Nat)
    (hfuel : (srv.queueOf loads c).length < fuel) :
    (Decodes (Python.decoders modules) (srv.queueOf loads c) → ∀ self,
      Collects (Python.decoders modules) Python.dict (Server.queueOf loads · c) srv n
        (run (Server.answer jansson loads c) (Python.DimeClient.sync_r modules (fuel + 1) n) self
          srv [])) ∧
    (Decodes (Matlab.decoders rt) (srv.queueOf loads c) → ∀ self,
      (Collects (Matlab.decoders rt) id (Server.queueOf loads · c) srv n
          (run (Server.answer jansson loads c) (Matlab.Obj.sync_r rt (fuel + 1) n) self srv []) ↔
        (0 < n.toInt → ∀ message ∈ (srv.queueOf loads c).take n.toInt.toNat,
          supports (Matlab.decoders rt) message = true) ∧
        ∀ message ∈ (srv.queueOf loads c).take (syncCount n),
          supports (Matlab.decoders rt) message = true →
            Matlab.ValidName rt (text message "varname"))) ∧
    (Decodes (JavaScript.decoders rt') (srv.queueOf loads c) → ∀ self, self.rejected = none →
      (Collects (JavaScript.decoders rt') id (Server.queueOf loads · c) srv n
          (run (Server.answer jansson loads c) (JavaScript.DimeClient.sync_r rt' fuel n) self srv []) ↔
        (0 < n.toInt → ∀ message ∈ (srv.queueOf loads c).take n.toInt.toNat,
          supports (JavaScript.decoders rt') message = true) ∧
        ∀ message ∈ (srv.queueOf loads c).take (syncCount n),
          supports (JavaScript.decoders rt') message = true →
            text message "varname" ≠ "__proto__")) := by
  have hserves : Serves (Server.answer jansson loads c) (Server.queueOf loads · c)
      (fun srv => (∃ history, Reaches jansson history srv) ∧
        ∃ clnt, srv.clnts.cells c = some clnt) := Reaches.serves hok c
  have hgood : (∃ history, Reaches jansson history srv) ∧
      ∃ clnt, srv.clnts.cells c = some clnt := ⟨⟨history, h⟩, clnt, hc⟩
  refine ⟨?_, ?_, ?_⟩
  · intro hdecodes self
    have htagged : ∀ message ∈ srv.queueOf loads c, Python.Tagged modules message :=
      fun message hmem => Python.tagged_of_isVariable modules (hcarries message hmem)
    exact (Python.judges modules).collects_rounds (Python.resyncs modules)
      (fun entries more => congrArg Prog.done (Python.update_dict entries more)) hserves
      (Python.ends_statusOk modules) hgood hfuel hlen ⟨htagged, hdecodes, fun _ _ _ => trivial⟩ self
  · intro hdecodes self
    exact Matlab.collects_iff rt hfield hserves hgood hfuel hlen hcarries hdecodes self
  · intro hdecodes self hself
    exact JavaScript.collects_iff rt' hkey hserves hgood hfuel hlen hcarries hdecodes hself

/-- A variable that none of the clients can decode. -/
theorem isVariable_foreign : ∀ message ∈ [(⟨broadcastOf foreign, [7]⟩ : Message)],
    IsVariable message := by
  rw [List.forall_mem_singleton]
  exact ⟨rfl, rfl, rfl⟩

theorem fieldName_plain (s t : String) (h : plainMatlab.fieldName (.string s) = some t) : t = s :=
  (Option.some.inj h).symm

theorem sync_r_results_foreign : ∃ history srv,
    Reaches (compactJansson []) history srv ∧
    Collects (Python.decoders plainModules) Python.dict (Server.queueOf (wireOf foreign) · 0) srv 1
      (run (Server.answer (compactJansson []) (wireOf foreign) 0)
        (Python.DimeClient.sync_r plainModules 3 1) ⟨.string "pickle", some .pickle⟩ srv []) ∧
    Collects (Matlab.decoders plainMatlab) id (Server.queueOf (wireOf foreign) · 0) srv (-1)
      (run (Server.answer (compactJansson []) (wireOf foreign) 0)
        (Matlab.Obj.sync_r plainMatlab 3 (-1)) ⟨.string "matlab"⟩ srv []) ∧
    Collects (JavaScript.decoders plainJavaScript) id (Server.queueOf (wireOf foreign) · 0) srv (-1)
      (run (Server.answer (compactJansson []) (wireOf foreign) 0)
        (JavaScript.DimeClient.sync_r plainJavaScript 2 (-1))
        ⟨some (.string "json"), some .json, none⟩ srv []) := by
  obtain ⟨history, srv, clnt, h, hc, _, hqueue⟩ :=
    broadcast_queued (compactJansson []) foreign (wireOf foreign) (by decide +kernel)
  have hok : wireOf foreign statusOkText = statusOkMessage.jsondata := by decide +kernel
  have hresults := fun n => sync_r_results h hc hok (by rw [hqueue]; decide)
    (by rw [hqueue]; exact isVariable_foreign) plainModules plainMatlab plainJavaScript
    fieldName_plain (fun _ => rfl) n 2 (by rw [hqueue]; decide)
  -- no client supports the serialization
  have hunsupported : ∀ {U : Type} (decoders : Decoders U), decoders "other" = none →
      ∀ message ∈ srv.queueOf (wireOf foreign) 0, supports decoders message ≠ true := by
    intro U decoders hnone
    rw [hqueue, List.forall_mem_singleton]
    intro hsupports
    have hother : text (⟨broadcastOf foreign, [7]⟩ : Message) "serialization" = "other" := rfl
    rw [supports, hother, hnone] at hsupports
    cases hsupports
  refine ⟨history, srv, h, (hresults 1).1 ?_ _, ((hresults (-1)).2.1 ?_ _).mpr ⟨?_, ?_⟩,
    ((hresults (-1)).2.2 ?_ _ rfl).mpr ⟨?_, ?_⟩⟩
  · exact fun message hmem hsupports => absurd hsupports (hunsupported _ rfl message hmem)
  · exact fun message hmem hsupports => absurd hsupports (hunsupported _ rfl message hmem)
  · exact fun hpos => absurd hpos (by decide)
  · exact fun message hmem hsupports =>
      absurd hsupports (hunsupported _ rfl message (List.mem_of_mem_take hmem))
  · exact fun message hmem hsupports => absurd hsupports (hunsupported _ rfl message hmem)
  · exact fun hpos => absurd hpos (by decide)
  · exact fun message hmem hsupports =>
      absurd hsupports (hunsupported _ rfl message (List.mem_of_mem_take hmem))

/-- Asked for one variable where one in another serialization comes first, Matlab and
JavaScript fail. -/
theorem sync_r_fails : ∃ history srv,
    Reaches (compactJansson []) history srv ∧
    srv.queueOf (wireOf foreign) 0 = [⟨broadcastOf foreign, [7]⟩] ∧
    (∀ self, ¬ Collects (Matlab.decoders plainMatlab) id (Server.queueOf (wireOf foreign) · 0) srv 1
      (run (Server.answer (compactJansson []) (wireOf foreign) 0)
        (Matlab.Obj.sync_r plainMatlab 3 1) self srv [])) ∧
    ∀ self, self.rejected = none →
      ¬ Collects (JavaScript.decoders plainJavaScript) id (Server.queueOf (wireOf foreign) · 0) srv 1
        (run (Server.answer (compactJansson []) (wireOf foreign) 0)
          (JavaScript.DimeClient.sync_r plainJavaScript 2 1) self srv []) := by
  obtain ⟨history, srv, clnt, h, hc, _, hqueue⟩ :=
    broadcast_queued (compactJansson []) foreign (wireOf foreign) (by decide +kernel)
  have hserves : Serves (Server.answer (compactJansson []) (wireOf foreign) 0)
      (Server.queueOf (wireOf foreign) · 0)
      (fun srv => (∃ history, Reaches (compactJansson []) history srv) ∧
        ∃ clnt, srv.clnts.cells 0 = some clnt) := Reaches.serves (by decide +kernel) 0
  have hgood : (∃ history, Reaches (compactJansson []) history srv) ∧
      ∃ clnt, srv.clnts.cells 0 = some clnt := ⟨⟨history, h⟩, clnt, hc⟩
  have hfuel : (srv.queueOf (wireOf foreign) 0).length < 2 := by rw [hqueue]; decide
  have hlen : (srv.queueOf (wireOf foreign) 0).length < 2 ^ 64 := by rw [hqueue]; decide
  have hcarries : ∀ message ∈ srv.queueOf (wireOf foreign) 0, IsVariable message := by
    rw [hqueue]
    exact isVariable_foreign
  refine ⟨history, srv, h, hqueue, ?_, ?_⟩
  · intro self hcollects
    have hdecodes : Decodes (Matlab.decoders plainMatlab) (srv.queueOf (wireOf foreign) 0) := by
      rw [hqueue]
      exact List.forall_mem_singleton.mpr fun h => by cases h
    have hfirst := ((Matlab.collects_iff plainMatlab fieldName_plain hserves hgood hfuel hlen hcarries
      hdecodes self).mp hcollects).1 (by decide)
    rw [hqueue] at hfirst
    cases hfirst _ List.mem_cons_self
  · intro self hself hcollects
    have hdecodes : Decodes (JavaScript.decoders plainJavaScript)
        (srv.queueOf (wireOf foreign) 0) := by
      rw [hqueue]
      exact List.forall_mem_singleton.mpr fun h => by cases h
    have hfirst := ((JavaScript.collects_iff plainJavaScript (fun _ => rfl) hserves hgood hfuel hlen
      hcarries hdecodes hself).mp hcollects).1 (by decide)
    rw [hqueue] at hfirst
    cases hfirst _ List.mem_cons_self

end Dime
