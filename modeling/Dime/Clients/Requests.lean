import Dime.Clients.Transmission
import Dime.Clients.Relays

/-!
# The requests of the clients

What `send` and `broadcast` of the three clients send for a list of variables, and
whether they read the replies.
-/

namespace Dime

open Dialogue

theorem Request.send_injective {group varname varname' : String} {serialization : Json}
    (h : Request.send group varname serialization = Request.send group varname' serialization) :
    varname = varname' := by
  simpa [Request.send] using h

theorem Request.broadcast_injective {varname varname' : String} {serialization : Json}
    (h : Request.broadcast varname serialization = Request.broadcast varname' serialization) :
    varname = varname' := by
  simpa [Request.broadcast] using h

/-- Putting in variables of different names makes a list of them. -/
theorem foldl_insert {V : Type} {kvpairs entries : List (String × V)}
    (hnodup : ((entries ++ kvpairs).map Prod.fst).Nodup) :
    Association.update entries kvpairs = entries ++ kvpairs := by
  induction kvpairs generalizing entries with
  | nil => rw [List.append_nil]; rfl
  | cons kv kvpairs ih =>
      have hnew : kv.1 ∉ entries.map Prod.fst := by
        rw [List.map_append, List.map_cons, List.nodup_append] at hnodup
        intro hmem
        exact hnodup.2.2 _ hmem _ List.mem_cons_self rfl
      have hstep : Association.update entries (kv :: kvpairs) =
          Association.update (entries ++ [kv]) kvpairs :=
        congrArg (fun entries => Association.update entries kvpairs) (Association.insert_of_notMem hnew)
      rw [hstep, ih (by rw [List.append_assoc]; exact hnodup), List.append_assoc]
      rfl

/-- Looking variables up by their names puts them in one by one, where each lookup succeeds. -/
theorem foldlM_insert {V : Type} (select : List (String × V) → String → Except String (List (String × V)))
    (kvpairs entries : List (String × V))
    (hselect : ∀ kv ∈ kvpairs, ∀ entries,
      select entries kv.1 = .ok (Association.insert kv.1 kv.2 entries)) :
    (kvpairs.map Prod.fst).foldlM select entries = .ok (Association.update entries kvpairs) := by
  induction kvpairs generalizing entries with
  | nil => rfl
  | cons kv kvpairs ih =>
      rw [List.forall_mem_cons] at hselect
      rw [List.map_cons, List.foldlM_cons, hselect.1 entries]
      exact ih _ hselect.2

section

variable {Env : Type} {answer : Env → Message → Env × List Message} {env : Env} {fuel : Nat}

/-! ## Python -/

namespace Python

variable (modules : Modules)

theorem selected_eq {workspace : String → Option Value} {kvpairs : List (String × Value)}
    (hnodup : (kvpairs.map Prod.fst).Nodup)
    (hworkspace : ∀ kv ∈ kvpairs, workspace kv.1 = some kv.2) :
    DimeClient.selected workspace (kvpairs.map Prod.fst) = .ok kvpairs := by
  refine (foldlM_insert _ kvpairs [] fun kv hkv entries => ?_).trans ?_
  · rw [hworkspace kv hkv]
  · rw [foldl_insert hnodup]
    rfl

/-- The name of a parameter cannot be that of a variable. -/
theorem keywords_eq (parameters : List String) (kvpairs : List (String × Value)) :
    DimeClient.keywords parameters kvpairs =
      if ∀ parameter ∈ parameters, parameter ∉ kvpairs.map Prod.fst then .ok kvpairs
      else .error "TypeError: got multiple values for argument" := by
  have hiff : (kvpairs.any fun kv => kv.1 ∈ parameters) = true ↔
      ¬ ∀ parameter ∈ parameters, parameter ∉ kvpairs.map Prod.fst := by
    simp only [List.any_eq_true, decide_eq_true_eq, not_forall, not_not, List.mem_map]
    constructor
    · rintro ⟨kv, hkv, hparameter⟩
      exact ⟨kv.1, hparameter, kv, hkv, rfl⟩
    · rintro ⟨_, hparameter, kv, hkv, rfl⟩
      exact ⟨kv, hkv, hparameter⟩
  unfold DimeClient.keywords
  by_cases h : ∀ parameter ∈ parameters, parameter ∉ kvpairs.map Prod.fst
  · rw [if_pos h, if_neg fun hany => hiff.mp hany h]
  · rw [if_neg h, if_pos (hiff.mpr h)]

theorem same_serialization (self : DimeClient) :
    (DimeClient.pipeline modules).differs self.serialization self.serialization = false := by
  simp [DimeClient.pipeline]

variable {self : DimeClient} {workspace : String → Option Value} {kvpairs : List (String × Value)}

/-- What is sent where the call of the method with the variables is an error. -/
theorem not_transmits_raised {request : String → Json → Json} {serialization : Json}
    {encode : Value → Except String Bytes} {err : String} (hkvpairs : kvpairs ≠ []) :
    ¬ Transmits request serialization encode kvpairs
      (⟨.raised err, self, env, [], []⟩ : Ended Env DimeClient String Message Message Unit) := by
  intro h
  exact hkvpairs (List.forall₂_nil_right_iff.mp h.requests)

theorem send_transmits_iff (hreplies : RepliesOnce DimeClient.listener answer) (group : String)
    (hnodup : (kvpairs.map Prod.fst).Nodup)
    (hworkspace : ∀ kv ∈ kvpairs, workspace kv.1 = some kv.2) :
    Transmits (Request.send group) self.serialization (DimeClient.dumps modules self) kvpairs
        (run answer (DimeClient.send modules (fuel + 2) workspace group (kvpairs.map Prod.fst)) self env
          []) ↔
      Granted answer checkStatus (Request.send group) self.serialization
          (DimeClient.dumps modules self) env kvpairs ∧
        "self" ∉ kvpairs.map Prod.fst ∧ "name" ∉ kvpairs.map Prod.fst := by
  have hkeywords := keywords_eq ["self", "name"] kvpairs
  unfold DimeClient.send
  rw [selected_eq hnodup hworkspace]
  by_cases hnames : ∀ parameter ∈ ["self", "name"], parameter ∉ kvpairs.map Prod.fst
  · rw [if_pos hnames] at hkeywords
    rw [and_iff_left ⟨hnames _ List.mem_cons_self, hnames _ (List.mem_cons_of_mem _ List.mem_cons_self)⟩]
    have hiff : Transmits (Request.send group) self.serialization (DimeClient.dumps modules self) kvpairs
        (run answer (DimeClient.send_r modules (fuel + 2) group kvpairs) self env []) ↔
        Granted answer checkStatus (Request.send group) self.serialization
          (DimeClient.dumps modules self) env kvpairs :=
      Pipeline.transmits_iff hreplies (same_serialization modules self) (by decide) kvpairs
    simp only [Prog.ofExcept, Prog.bind_eq, Prog.bind, hkeywords]
    exact hiff
  · rw [if_neg hnames] at hkeywords
    refine iff_of_false ?_ fun h => hnames ?_
    · simp only [Prog.ofExcept, Prog.bind_eq, Prog.bind, hkeywords, run]
      apply not_transmits_raised
      rintro rfl
      exact hnames (by simp)
    · simpa using h.2

theorem broadcast_transmits_iff (hreplies : RepliesOnce DimeClient.listener answer)
    (hnodup : (kvpairs.map Prod.fst).Nodup)
    (hworkspace : ∀ kv ∈ kvpairs, workspace kv.1 = some kv.2) :
    Transmits Request.broadcast self.serialization (DimeClient.dumps modules self) kvpairs
        (run answer (DimeClient.broadcast modules (fuel + 1) workspace (kvpairs.map Prod.fst)) self env
          []) ↔
      Granted answer checkStatus Request.broadcast self.serialization
          (DimeClient.dumps modules self) env kvpairs ∧
        "self" ∉ kvpairs.map Prod.fst := by
  have hkeywords := keywords_eq ["self"] kvpairs
  unfold DimeClient.broadcast
  rw [selected_eq hnodup hworkspace]
  by_cases hnames : ∀ parameter ∈ ["self"], parameter ∉ kvpairs.map Prod.fst
  · rw [if_pos hnames] at hkeywords
    rw [and_iff_left (hnames _ List.mem_cons_self)]
    have hiff : Transmits Request.broadcast self.serialization (DimeClient.dumps modules self) kvpairs
        (run answer (DimeClient.broadcast_r modules (fuel + 1) kvpairs) self env []) ↔
        Granted answer checkStatus Request.broadcast self.serialization
          (DimeClient.dumps modules self) env kvpairs :=
      Pipeline.transmits_iff hreplies (same_serialization modules self) (by decide) kvpairs
    simp only [Prog.ofExcept, Prog.bind_eq, Prog.bind, hkeywords]
    exact hiff
  · rw [if_neg hnames] at hkeywords
    refine iff_of_false ?_ fun h => hnames ?_
    · simp only [Prog.ofExcept, Prog.bind_eq, Prog.bind, hkeywords, run]
      apply not_transmits_raised
      rintro rfl
      exact hnames (by simp)
    · simpa using h.2

end Python

/-! ## Matlab -/

namespace Matlab

variable {V : Type} {rt : Runtime V} {self : Obj} {caller : String → Option V}
  {kvpairs : List (String × V)}

theorem selected_eq (hnodup : (kvpairs.map Prod.fst).Nodup)
    (hcaller : ∀ kv ∈ kvpairs, caller kv.1 = some kv.2)
    (hfield : ∀ kv ∈ kvpairs, rt.fieldName (.string kv.1) = some kv.1) :
    Obj.selected rt caller (kvpairs.map Prod.fst) = .ok kvpairs := by
  refine (foldlM_insert _ kvpairs [] fun kv hkv entries => ?_).trans ?_
  · rw [hcaller kv hkv, hfield kv hkv]
    rfl
  · rw [foldl_insert hnodup]
    rfl

theorem same_serialization (hself : ∃ name, self.serialization = .string name) :
    (Obj.pipeline rt).differs self.serialization self.serialization = false := by
  obtain ⟨name, hname⟩ := hself
  simp [Obj.pipeline, hname, rt.strcmp_string]

/-- The windows of the loops overlap by one. -/
theorem send_transmits_iff (hreplies : RepliesOnce (Obj.listener rt) answer)
    (hself : ∃ name, self.serialization = .string name) (group : String)
    (hnodup : (kvpairs.map Prod.fst).Nodup)
    (hcaller : ∀ kv ∈ kvpairs, caller kv.1 = some kv.2)
    (hfield : ∀ kv ∈ kvpairs, rt.fieldName (.string kv.1) = some kv.1) :
    Transmits (Request.send group) self.serialization (Obj.encode rt self) kvpairs
        (run answer (Obj.send rt (fuel + 2) caller group (kvpairs.map Prod.fst)) self env []) ↔
      Granted answer (checkStatus rt) (Request.send group) self.serialization (Obj.encode rt self) env
          kvpairs ∧
        (kvpairs.length ≤ 16 ∨ kvpairs.length = 17 ∧ LastRefused answer (checkStatus rt)
          (Request.send group) self.serialization (Obj.encode rt self) env kvpairs) := by
  unfold Obj.send
  rw [selected_eq hnodup hcaller hfield]
  exact Pipeline.transmits_overlapping_iff hreplies
    (same_serialization hself) (fun _ _ => Request.send_injective) (by decide) hnodup

theorem broadcast_transmits_iff (hreplies : RepliesOnce (Obj.listener rt) answer)
    (hself : ∃ name, self.serialization = .string name)
    (hnodup : (kvpairs.map Prod.fst).Nodup)
    (hcaller : ∀ kv ∈ kvpairs, caller kv.1 = some kv.2)
    (hfield : ∀ kv ∈ kvpairs, rt.fieldName (.string kv.1) = some kv.1) :
    Transmits Request.broadcast self.serialization (Obj.encode rt self) kvpairs
        (run answer (Obj.broadcast rt (fuel + 2) caller (kvpairs.map Prod.fst)) self env []) ↔
      Granted answer (checkStatus rt) Request.broadcast self.serialization (Obj.encode rt self) env
          kvpairs ∧
        (kvpairs.length ≤ 16 ∨ kvpairs.length = 17 ∧ LastRefused answer (checkStatus rt)
          Request.broadcast self.serialization (Obj.encode rt self) env kvpairs) := by
  unfold Obj.broadcast
  rw [selected_eq hnodup hcaller hfield]
  exact Pipeline.transmits_overlapping_iff hreplies
    (same_serialization hself) (fun _ _ => Request.broadcast_injective) (by decide) hnodup

end Matlab

/-! ## JavaScript -/

namespace JavaScript

variable {W : Type} {rt : Runtime W} {self : DimeClient} {kvpairs : List (String × W)}
  {request : String → Json → Json} {serialization : Json}

theorem run_transmit_cons {varname : String} {value : W} {bindata : Bytes} {reply : Message}
    (hself : self.serialization = some serialization)
    (hencode : DimeClient.dumps rt self value = .ok bindata)
    (hreply : (answer env ⟨request varname serialization, bindata⟩).2 = [reply]) :
    run answer (DimeClient.transmit rt request ((varname, value) :: kvpairs)) self env [] =
      match checkStatus rt reply.jsondata with
      | .ok () => (run answer (DimeClient.transmit rt request kvpairs) self
          (answer env ⟨request varname serialization, bindata⟩).1 []).after
            [⟨request varname serialization, bindata⟩]
      | .error err => ⟨.raised err, self, (answer env ⟨request varname serialization, bindata⟩).1,
          [⟨request varname serialization, bindata⟩], []⟩ := by
  cases hcheck : checkStatus rt reply.jsondata with
  | ok _ =>
      simp [DimeClient.transmit, DimeClient.call, DimeClient.recv, Prog.self, Prog.request,
        Prog.message, Prog.bind, run, hself, hencode, hreply, hcheck, Prog.ofExcept]
  | error err =>
      simp [DimeClient.transmit, DimeClient.call, DimeClient.recv, Prog.self, Prog.request,
        Prog.message, Prog.bind, run, hself, hencode, hreply, hcheck, Prog.ofExcept, Ended.after]

theorem run_transmit_raised {varname : String} {value : W} {err : String}
    (hencode : DimeClient.dumps rt self value = .error err) :
    run answer (DimeClient.transmit rt request ((varname, value) :: kvpairs)) self env [] =
      ⟨.raised err, self, env, [], []⟩ := by
  simp [DimeClient.transmit, Prog.self, Prog.bind, run, hencode, Prog.ofExcept]

/-- The loop awaits each reply before the next request. -/
theorem transmit_transmits_iff (hreplies : RepliesOnce (listener rt) answer)
    (hself : self.serialization = some serialization) :
    Transmits request serialization (DimeClient.dumps rt self) kvpairs
        (run answer (DimeClient.transmit rt request kvpairs) self env []) ↔
      Granted answer (checkStatus rt) request serialization (DimeClient.dumps rt self) env kvpairs := by
  induction kvpairs generalizing env with
  | nil => exact ⟨fun _ => ⟨[], .nil, by simp⟩, fun _ => ⟨.nil, rfl⟩⟩
  | cons kv kvpairs ih =>
      obtain ⟨varname, value⟩ := kv
      cases hencode : DimeClient.dumps rt self value with
      | error err =>
          rw [run_transmit_raised hencode]
          refine iff_of_false ?_ ?_
          · intro h
            cases h.requests
          · intro h
            obtain ⟨messages, hmessages, _⟩ := h
            obtain ⟨bindata, hbindata⟩ := encode_of_carries hmessages _ List.mem_cons_self
            cases hencode.symm.trans hbindata
      | ok bindata =>
          have hmakes : List.Forall₂ (Carries request serialization (DimeClient.dumps rt self))
              [(varname, value)] [⟨request varname serialization, bindata⟩] :=
            .cons ⟨rfl, hencode⟩ .nil
          obtain ⟨reply, hreply, _⟩ := hreplies env ⟨request varname serialization, bindata⟩
          have hserve : (serve answer env [⟨request varname serialization, bindata⟩]).2 = [reply] := by
            simp [serve, hreply]
          rw [run_transmit_cons hself hencode hreply, ← List.singleton_append]
          cases hcheck : checkStatus rt reply.jsondata with
          | ok _ =>
              have hchecked : ∀ reply ∈ (serve answer env
                  [⟨request varname serialization, bindata⟩]).2,
                  checkStatus rt reply.jsondata = .ok () := by
                rw [hserve]
                exact List.forall_mem_singleton.mpr hcheck
              rw [granted_append hmakes hchecked]
              refine Iff.trans ⟨?_, ?_⟩ ih
              · intro h
                exact ⟨(carries_append hmakes).mp h.requests, h.replies⟩
              · intro h
                exact ⟨(carries_append hmakes).mpr h.requests, h.replies⟩
          | error err =>
              have hfront : ∀ reply ∈ ([] : List Message), checkStatus rt reply.jsondata = .ok () := by
                simp
              rw [granted_refused_iff hreplies hmakes hserve hfront hcheck]
              constructor
              · intro h
                exact ⟨rfl, List.forall₂_nil_right_iff.mp ((carries_append hmakes).mp h.requests)⟩
              · rintro ⟨_, rfl⟩
                exact ⟨hmakes, rfl⟩

/-- What is sent are requests for the first of the variables. -/
theorem requests_transmit (hreplies : RepliesOnce (listener rt) answer)
    (hself : self.serialization = some serialization) :
    ∃ n, (run answer (DimeClient.transmit rt request kvpairs) self env []).requests.map
        (fun message => message.jsondata) =
      (kvpairs.take n).map fun kv => request kv.1 serialization := by
  induction kvpairs generalizing env with
  | nil => exact ⟨0, rfl⟩
  | cons kv kvpairs ih =>
      obtain ⟨varname, value⟩ := kv
      cases hencode : DimeClient.dumps rt self value with
      | error err =>
          rw [run_transmit_raised hencode]
          exact ⟨0, rfl⟩
      | ok bindata =>
          obtain ⟨reply, hreply, _⟩ := hreplies env ⟨request varname serialization, bindata⟩
          rw [run_transmit_cons hself hencode hreply]
          cases checkStatus rt reply.jsondata with
          | ok _ =>
              obtain ⟨n, hn⟩ : ∃ n, (run answer (DimeClient.transmit rt request kvpairs) self
                  (answer env ⟨request varname serialization, bindata⟩).1 []).requests.map
                    (fun message => message.jsondata) =
                  (kvpairs.take n).map fun kv => request kv.1 serialization := ih
              refine ⟨n + 1, ?_⟩
              dsimp only
              rw [Ended.after_requests, List.map_append, hn]
              rfl
          | error err => exact ⟨1, rfl⟩

/-! ### The order of the entries -/

theorem precedes_total (key key' : String) :
    DimeClient.precedes key key' = true ∨ DimeClient.precedes key' key = true := by
  unfold DimeClient.precedes
  cases DimeClient.arrayIndex? key <;> cases DimeClient.arrayIndex? key' <;> simp [Nat.le_total]

theorem precedes_trans {key key' key'' : String} (h : DimeClient.precedes key key' = true)
    (h' : DimeClient.precedes key' key'' = true) : DimeClient.precedes key key'' = true := by
  unfold DimeClient.precedes at h h' ⊢
  cases hkey : DimeClient.arrayIndex? key <;> cases hkey' : DimeClient.arrayIndex? key' <;>
    cases hkey'' : DimeClient.arrayIndex? key'' <;> simp_all
  exact h.trans h'

/-- Names of variables in the order in which an object enumerates them. -/
def Enumerated (names : List String) : Prop :=
  names.Pairwise fun name name' => DimeClient.precedes name name' = true

theorem entries_eq {object : List (String × W)} (h : Enumerated (object.map Prod.fst)) :
    DimeClient.entries object = object :=
  List.Pairwise.insertionSort_eq (List.pairwise_map.mp h)

theorem enumerated_entries (object : List (String × W)) :
    Enumerated ((DimeClient.entries object).map Prod.fst) := by
  have htotal : Std.Total fun entry entry' : String × W =>
      DimeClient.precedes entry.1 entry'.1 = true := ⟨fun _ _ => precedes_total _ _⟩
  have htrans : IsTrans (String × W) fun entry entry' =>
      DimeClient.precedes entry.1 entry'.1 = true := ⟨fun _ _ _ => precedes_trans⟩
  exact List.pairwise_map.mpr (List.pairwise_insertionSort _ object)

theorem length_entries (object : List (String × W)) :
    (DimeClient.entries object).length = object.length := List.length_insertionSort _ _

/-- The variables of different names that `selected` puts into an object. -/
theorem selected_eq {workspace : String → W} (hnodup : (kvpairs.map Prod.fst).Nodup)
    (hworkspace : ∀ kv ∈ kvpairs, workspace kv.1 = kv.2) :
    DimeClient.selected workspace (kvpairs.map Prod.fst) =
      kvpairs.filter fun kv => kv.1 ≠ "__proto__" := by
  have hfold : ∀ (kvpairs entries : List (String × W)), (∀ kv ∈ kvpairs, workspace kv.1 = kv.2) →
      (kvpairs.map Prod.fst).foldl (fun entries varname =>
        DimeClient.setProperty varname (workspace varname) entries) entries =
          Association.update entries (kvpairs.filter fun kv => kv.1 ≠ "__proto__") := by
    intro kvpairs
    induction kvpairs with
    | nil => exact fun _ _ => rfl
    | cons kv kvpairs ih =>
        intro entries hworkspace
        rw [List.forall_mem_cons] at hworkspace
        rw [List.map_cons, List.foldl_cons, hworkspace.1, ih _ hworkspace.2]
        by_cases hproto : kv.1 = "__proto__"
        · rw [DimeClient.setProperty, if_pos hproto, List.filter_cons_of_neg (by simpa using hproto)]
        · rw [List.filter_cons_of_pos (by simpa using hproto)]
          exact congrArg (fun entries => Association.update entries _) (if_neg hproto)
  refine (hfold kvpairs [] hworkspace).trans ?_
  rw [foldl_insert (hnodup.sublist (List.filter_sublist.map Prod.fst))]
  rfl

theorem length_selected_le (workspace : String → W) (varnames : List String) :
    (DimeClient.selected workspace varnames).length ≤ varnames.length := by
  have hfold : ∀ (varnames : List String) (entries : List (String × W)),
      (varnames.foldl (fun entries varname =>
        DimeClient.setProperty varname (workspace varname) entries) entries).length ≤
          entries.length + varnames.length := by
    intro varnames
    induction varnames with
    | nil => exact fun entries => Nat.le_refl _
    | cons varname varnames ih =>
        intro entries
        have hstep : (DimeClient.setProperty varname (workspace varname) entries).length ≤
            entries.length + 1 := by
          unfold DimeClient.setProperty
          split
          · exact Nat.le_succ _
          · split
            · rw [List.length_map]
              exact Nat.le_succ _
            · rw [List.length_append, List.length_singleton]
        have hrest := ih (DimeClient.setProperty varname (workspace varname) entries)
        rw [List.foldl_cons, List.length_cons]
        omega
  have hle := hfold varnames []
  rwa [List.length_nil, Nat.zero_add] at hle

/-- If there has been one request for each variable, these are the first of the variables
that the loop goes through. -/
theorem names_of_transmits (hreplies : RepliesOnce (listener rt) answer)
    (hself : self.serialization = some serialization)
    (hrequest : ∀ varname varname', request varname serialization = request varname' serialization →
      varname = varname') {others : List (String × W)}
    (h : Transmits request serialization (DimeClient.dumps rt self) kvpairs
      (run answer (DimeClient.transmit rt request others) self env [])) :
    ∃ n, kvpairs.map Prod.fst = (others.take n).map Prod.fst := by
  obtain ⟨n, hn⟩ : ∃ n, (run answer (DimeClient.transmit rt request others) self env
      []).requests.map (fun message => message.jsondata) =
        (others.take n).map fun kv => request kv.1 serialization := requests_transmit hreplies hself
  have hjsondata : ∀ {kvpairs : List (String × W)} {messages : List Message},
      List.Forall₂ (Carries request serialization (DimeClient.dumps rt self)) kvpairs messages →
      messages.map (fun message => message.jsondata) =
        kvpairs.map fun kv => request kv.1 serialization := by
    intro kvpairs messages hcarries
    induction hcarries with
    | nil => rfl
    | cons hhead _ ih => rw [List.map_cons, List.map_cons, ih, hhead.1]
  have hinjective : Function.Injective fun varname => request varname serialization :=
    fun varname varname' heq => hrequest varname varname' heq
  refine ⟨n, List.map_injective_iff.mpr hinjective ?_⟩
  rw [List.map_map, List.map_map]
  exact (hjsondata h.requests).symm.trans hn

theorem run_connected {α : Type} (hself : self.rejected = none) (method : Method α) :
    run answer (DimeClient.connected.bind fun _ => method) self env [] = run answer method self env [] := by
  simp [DimeClient.connected, Prog.self, Prog.bind, run, hself]

/-- An object enumerates its properties in an order of its own, and `__proto__` is none. -/
theorem send_transmits_iff (hreplies : RepliesOnce (listener rt) answer) (hconnected : self.rejected = none)
    (hself : self.serialization = some serialization) (group : String) {workspace : String → W}
    (hnodup : (kvpairs.map Prod.fst).Nodup) (hworkspace : ∀ kv ∈ kvpairs, workspace kv.1 = kv.2) :
    Transmits (Request.send group) serialization (DimeClient.dumps rt self) kvpairs
        (run answer (DimeClient.send rt workspace group (kvpairs.map Prod.fst)) self env []) ↔
      Granted answer (checkStatus rt) (Request.send group) serialization (DimeClient.dumps rt self) env
          kvpairs ∧
        Enumerated (kvpairs.map Prod.fst) ∧ "__proto__" ∉ kvpairs.map Prod.fst := by
  unfold DimeClient.send DimeClient.send_r
  rw [selected_eq hnodup hworkspace, Prog.bind_eq, run_connected hconnected]
  by_cases horder : Enumerated (kvpairs.map Prod.fst) ∧ "__proto__" ∉ kvpairs.map Prod.fst
  · have hall : kvpairs.filter (fun kv => kv.1 ≠ "__proto__") = kvpairs := by
      rw [List.filter_eq_self]
      intro kv hkv
      have hne : kv.1 ≠ "__proto__" := fun h => horder.2 (h ▸ List.mem_map_of_mem hkv)
      simpa using hne
    rw [hall, entries_eq horder.1, and_iff_left horder]
    exact transmit_transmits_iff hreplies hself
  · refine iff_of_false ?_ fun h => horder h.2
    intro h
    obtain ⟨n, hn⟩ := names_of_transmits hreplies hself (fun _ _ => Request.send_injective) h
    -- all variables are there, so that all are among the entries
    have hlength := congrArg List.length hn
    rw [List.length_map, List.length_map, List.length_take, length_entries] at hlength
    have hfilter := List.length_filter_le (fun kv : String × W => kv.1 ≠ "__proto__") kvpairs
    have hall : kvpairs.filter (fun kv => kv.1 ≠ "__proto__") = kvpairs :=
      List.filter_sublist.eq_of_length (by omega)
    rw [hall] at hn hlength
    rw [List.take_of_length_le (by rw [length_entries]; omega)] at hn
    refine horder ⟨?_, ?_⟩
    · rw [hn]
      exact enumerated_entries kvpairs
    · intro hmem
      obtain ⟨kv, hkv, hproto⟩ := List.mem_map.mp hmem
      rw [List.filter_eq_self] at hall
      exact absurd hproto (by simpa using hall kv hkv)

/-- The first variable is taken for a group, and there is no request for it. -/
theorem broadcast_transmits_iff (hreplies : RepliesOnce (listener rt) answer)
    (hconnected : self.rejected = none) (hself : self.serialization = some serialization)
    (workspace : String → W) :
    Transmits Request.broadcast serialization (DimeClient.dumps rt self) kvpairs
        (run answer (DimeClient.broadcast rt workspace (kvpairs.map Prod.fst)) self env []) ↔
      kvpairs = [] := by
  unfold DimeClient.broadcast DimeClient.broadcast_r
  rw [Prog.bind_eq, run_connected hconnected]
  constructor
  · intro h
    obtain ⟨n, hn⟩ := names_of_transmits hreplies hself (fun _ _ => Request.broadcast_injective) h
    have hlength := congrArg List.length hn
    rw [List.length_map, List.length_map, List.length_take, length_entries] at hlength
    have hselected := length_selected_le workspace (kvpairs.map Prod.fst).tail
    rw [List.length_tail, List.length_map] at hselected
    exact List.eq_nil_of_length_eq_zero (by omega)
  · rintro rfl
    exact ⟨.nil, rfl⟩

end JavaScript

end

/-! ## All three -/

/-- At a server that answers each request with one message that is not for the connection,
a method for variables of different names sends one request for each of them, in their
order, and reads the replies, if and only if the variables can be encoded, none of the
replies but the last is a refusal, and the client can deal with the names: none is that of
a parameter in Python; there are at most 16 of them in Matlab, or 17 of which the last is
refused; an object enumerates them in this order in JavaScript, where a `broadcast` must
be without any. -/
theorem transmits_iff_granted {Env : Type} (answer : Env → Message → Env × List Message) (env : Env)
    (fuel : Nat) (group : String) {V W : Type} (modules : Python.Modules) (rt : Matlab.Runtime V)
    (rt' : JavaScript.Runtime W) :
    (RepliesOnce Python.DimeClient.listener answer →
      ∀ self workspace (kvpairs : List (String × Python.Value)), (kvpairs.map Prod.fst).Nodup →
      (∀ kv ∈ kvpairs, workspace kv.1 = some kv.2) →
      (Transmits (Request.send group) self.serialization (Python.DimeClient.dumps modules self) kvpairs
          (run answer (Python.DimeClient.send modules (fuel + 2) workspace group
            (kvpairs.map Prod.fst)) self env []) ↔
        Granted answer Python.checkStatus (Request.send group) self.serialization
            (Python.DimeClient.dumps modules self) env kvpairs ∧
          "self" ∉ kvpairs.map Prod.fst ∧ "name" ∉ kvpairs.map Prod.fst) ∧
      (Transmits Request.broadcast self.serialization (Python.DimeClient.dumps modules self) kvpairs
          (run answer (Python.DimeClient.broadcast modules (fuel + 2) workspace
            (kvpairs.map Prod.fst)) self env []) ↔
        Granted answer Python.checkStatus Request.broadcast self.serialization
            (Python.DimeClient.dumps modules self) env kvpairs ∧
          "self" ∉ kvpairs.map Prod.fst)) ∧
    (RepliesOnce (Matlab.Obj.listener rt) answer →
      ∀ (self : Matlab.Obj) caller (kvpairs : List (String × V)),
      (∃ name, self.serialization = .string name) → (kvpairs.map Prod.fst).Nodup →
      (∀ kv ∈ kvpairs, caller kv.1 = some kv.2) →
      (∀ kv ∈ kvpairs, rt.fieldName (.string kv.1) = some kv.1) →
      (Transmits (Request.send group) self.serialization (Matlab.Obj.encode rt self) kvpairs
          (run answer (Matlab.Obj.send rt (fuel + 2) caller group (kvpairs.map Prod.fst)) self env []) ↔
        Granted answer (Matlab.checkStatus rt) (Request.send group) self.serialization
            (Matlab.Obj.encode rt self) env kvpairs ∧
          (kvpairs.length ≤ 16 ∨ kvpairs.length = 17 ∧ LastRefused answer (Matlab.checkStatus rt)
            (Request.send group) self.serialization (Matlab.Obj.encode rt self) env kvpairs)) ∧
      (Transmits Request.broadcast self.serialization (Matlab.Obj.encode rt self) kvpairs
          (run answer (Matlab.Obj.broadcast rt (fuel + 2) caller (kvpairs.map Prod.fst)) self env []) ↔
        Granted answer (Matlab.checkStatus rt) Request.broadcast self.serialization
            (Matlab.Obj.encode rt self) env kvpairs ∧
          (kvpairs.length ≤ 16 ∨ kvpairs.length = 17 ∧ LastRefused answer (Matlab.checkStatus rt)
            Request.broadcast self.serialization (Matlab.Obj.encode rt self) env kvpairs))) ∧
    (RepliesOnce (JavaScript.listener rt') answer →
      ∀ (self : JavaScript.DimeClient) serialization workspace (kvpairs : List (String × W)),
      self.rejected = none → self.serialization = some serialization →
      (kvpairs.map Prod.fst).Nodup → (∀ kv ∈ kvpairs, workspace kv.1 = kv.2) →
      (Transmits (Request.send group) serialization (JavaScript.DimeClient.dumps rt' self) kvpairs
          (run answer (JavaScript.DimeClient.send rt' workspace group (kvpairs.map Prod.fst)) self env
            []) ↔
        Granted answer (JavaScript.checkStatus rt') (Request.send group) serialization
            (JavaScript.DimeClient.dumps rt' self) env kvpairs ∧
          JavaScript.Enumerated (kvpairs.map Prod.fst) ∧ "__proto__" ∉ kvpairs.map Prod.fst) ∧
      (Transmits Request.broadcast serialization (JavaScript.DimeClient.dumps rt' self) kvpairs
          (run answer (JavaScript.DimeClient.broadcast rt' workspace (kvpairs.map Prod.fst)) self env
            []) ↔
        kvpairs = [])) := by
  refine ⟨?_, ?_, ?_⟩
  · intro hreplies self workspace kvpairs hnodup hworkspace
    exact ⟨Python.send_transmits_iff modules hreplies group hnodup hworkspace,
      Python.broadcast_transmits_iff modules hreplies hnodup hworkspace⟩
  · intro hreplies self caller kvpairs hself hnodup hcaller hfield
    exact ⟨Matlab.send_transmits_iff hreplies hself group hnodup hcaller hfield,
      Matlab.broadcast_transmits_iff hreplies hself hnodup hcaller hfield⟩
  · intro hreplies self serialization workspace kvpairs hconnected hself hnodup hworkspace
    exact ⟨JavaScript.send_transmits_iff hreplies hconnected hself group hnodup hworkspace,
      JavaScript.broadcast_transmits_iff hreplies hconnected hself workspace⟩

/-- A server that accepts everything. -/
def accepting (_ : Unit) (_ : Message) : Unit × List Message := ((), [statusOkMessage])

theorem transmits_iff_granted_single :
    Transmits (Request.send "group") (.string "json")
      (Python.DimeClient.dumps plainModules ⟨.string "json", some .json⟩) [("x", .none)]
      (run accepting (Python.DimeClient.send plainModules 2 (fun _ => some .none) "group" ["x"])
        ⟨.string "json", some .json⟩ () []) ∧
    Transmits (Request.send "group") (.string "dimeb")
      (Matlab.Obj.encode plainMatlab ⟨.string "dimeb"⟩) [("x", ())]
      (run accepting (Matlab.Obj.send plainMatlab 2 (fun _ => some ()) "group" ["x"])
        ⟨.string "dimeb"⟩ () []) ∧
    Transmits (Request.send "group") (.string "json")
      (JavaScript.DimeClient.dumps plainJavaScript ⟨some (.string "json"), some .json, none⟩) [("x", ())]
      (run accepting (JavaScript.DimeClient.send plainJavaScript (fun _ => ()) "group" ["x"])
        ⟨some (.string "json"), some .json, none⟩ () []) := by
  obtain ⟨hpython, hmatlab, hjavascript⟩ :=
    transmits_iff_granted accepting () 0 "group" plainModules plainMatlab plainJavaScript
  refine ⟨?_, ?_, ?_⟩
  · refine (hpython (fun _ _ => ⟨statusOkMessage, rfl, rfl⟩) ⟨.string "json", some .json⟩
      (fun _ => some .none) [("x", .none)] (by decide) (by simp)).1.mpr ⟨?_, by decide, by decide⟩
    exact ⟨[⟨Request.send "group" "x" (.string "json"), [0x30]⟩], .cons ⟨rfl, rfl⟩ .nil,
      fun _ h => by cases h⟩
  · refine (hmatlab (fun _ _ => ⟨statusOkMessage, rfl, rfl⟩) ⟨.string "dimeb"⟩
      (fun _ => some ()) [("x", ())] ⟨_, rfl⟩ (by decide) (by simp) (by simp [plainMatlab])).1.mpr
      ⟨?_, .inl (by decide)⟩
    exact ⟨[⟨Request.send "group" "x" (.string "dimeb"), [0]⟩], .cons ⟨rfl, rfl⟩ .nil,
      fun _ h => by cases h⟩
  · refine (hjavascript (fun _ _ => ⟨statusOkMessage, rfl, rfl⟩)
      ⟨some (.string "json"), some .json, none⟩ (.string "json") (fun _ => ()) [("x", ())] rfl rfl
      (by decide) (by simp)).1.mpr ⟨?_, List.pairwise_singleton _ _, by decide⟩
    exact ⟨[⟨Request.send "group" "x" (.string "json"), [0x30]⟩], .cons ⟨rfl, rfl⟩ .nil,
      fun _ h => by cases h⟩

/-- The names of 17 variables. -/
def letters : List (String × Unit) :=
  ["a", "b", "c", "d", "e", "f", "g", "h", "i", "j", "k", "l", "m", "n", "o", "p", "q"].map
    fun name => (name, ())

/-- Python raises an exception for a variable `name`, Matlab sends the 17th variable twice,
and JavaScript broadcasts nothing of a single variable. -/
theorem transmits_otherwise :
    ¬ Transmits (Request.send "group") (.string "json")
      (Python.DimeClient.dumps plainModules ⟨.string "json", some .json⟩) [("name", .none)]
      (run accepting (Python.DimeClient.send plainModules 2 (fun _ => some .none) "group" ["name"])
        ⟨.string "json", some .json⟩ () []) ∧
    ¬ Transmits (Request.send "group") (.string "dimeb")
      (Matlab.Obj.encode plainMatlab ⟨.string "dimeb"⟩) letters
      (run accepting (Matlab.Obj.send plainMatlab 2 (fun _ => some ()) "group" (letters.map Prod.fst))
        ⟨.string "dimeb"⟩ () []) ∧
    ¬ Transmits Request.broadcast (.string "json")
      (JavaScript.DimeClient.dumps plainJavaScript ⟨some (.string "json"), some .json, none⟩) [("x", ())]
      (run accepting (JavaScript.DimeClient.broadcast plainJavaScript (fun _ => ()) ["x"])
        ⟨some (.string "json"), some .json, none⟩ () []) := by
  refine ⟨fun h => ?_, fun h => ?_, fun h => ?_⟩
  · have hlength : (run accepting (Python.DimeClient.send plainModules 2 (fun _ => some .none) "group"
        ["name"]) ⟨.string "json", some .json⟩ () []).requests.length = 0 := by decide +kernel
    exact absurd (h.requests.length_eq.trans hlength) (by decide)
  · have hlength : (run accepting (Matlab.Obj.send plainMatlab 2 (fun _ => some ()) "group"
        (letters.map Prod.fst)) ⟨.string "dimeb"⟩ () []).requests.length = 18 := by decide +kernel
    exact absurd (h.requests.length_eq.trans hlength) (by decide)
  · have hlength : (run accepting (JavaScript.DimeClient.broadcast plainJavaScript (fun _ => ()) ["x"])
        ⟨some (.string "json"), some .json, none⟩ () []).requests.length = 0 := by decide +kernel
    exact absurd (h.requests.length_eq.trans hlength) (by decide)

end Dime
