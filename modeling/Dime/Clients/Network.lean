import Dime.Clients.Sessions
import Dime.Server.Serializations

/-!
# Clients and server together

In a run of the network, a command of a client is the next request that its session
has come to with what has been pushed to it. Messages stay in order and may be delayed:
a session may read them at any time before the server handles what it sends.
-/

namespace Dime

open Dialogue

namespace Server

variable (jansson : Jansson Json) (loads : CString → Json)

/-- The requests of a client that have been handled. -/
def handled (history : List (Server × Action)) (c : ClientPtr) : List Message :=
  history.flatMap fun entry =>
    match entry.2 with
    | .command c' jsondata bindata => if c' = c then [⟨jsondata, bindata⟩] else []
    | _ => []

/-- What has been pushed to a client, as it reads it. -/
def stream (srv : Server) (c : ClientPtr) : List Message :=
  (srv.sentTo c).map (Outgoing.message jansson loads)

end Server

section

variable {V W : Type} (platform : Platform V W) (endpoint : ClientPtr → Endpoint V W)
  (jansson : Jansson Json) (loads : CString → Json)

/-- An event after others; a command is the next request of the client that it is from. -/
def Follows (before : List (Server × Action)) (mid : Server) : Action → Prop
  | .command c jsondata bindata =>
      ((endpoint c).requests platform (mid.stream jansson loads c))[
        (Server.handled before c).length]? = some ⟨jsondata, bindata⟩
  | _ => True

instance (before : List (Server × Action)) (mid : Server) (action : Action) :
    Decidable (Follows platform endpoint jansson loads before mid action) :=
  match action with
  | .command c jsondata bindata => inferInstanceAs (Decidable
      (((endpoint c).requests platform (mid.stream jansson loads c))[
        (Server.handled before c).length]? = some ⟨jsondata, bindata⟩))
  | .accept .. | .find _ | .transfer .. | .close _ => .isTrue trivial

/-- The events of a run of the network, after others. -/
def DrivenFrom : List (Server × Action) → List (Server × Action) → Prop
  | _, [] => True
  | before, (mid, action) :: rest =>
      Follows platform endpoint jansson loads before mid action ∧
        DrivenFrom (before ++ [(mid, action)]) rest

instance DrivenFrom.decidable : (before rest : List (Server × Action)) →
    Decidable (DrivenFrom platform endpoint jansson loads before rest)
  | _, [] => .isTrue trivial
  | before, (mid, action) :: rest =>
      have := DrivenFrom.decidable (before ++ [(mid, action)]) rest
      inferInstanceAs (Decidable (_ ∧ _))

/-- A run of the network. -/
def Driven (history : List (Server × Action)) : Prop :=
  DrivenFrom platform endpoint jansson loads [] history

instance (history : List (Server × Action)) :
    Decidable (Driven platform endpoint jansson loads history) :=
  DrivenFrom.decidable platform endpoint jansson loads [] history

end

variable {V W : Type} {platform : Platform V W} {endpoint : ClientPtr → Endpoint V W}
  {jansson : Jansson Json} {loads : CString → Json} {history : List (Server × Action)}
  {mid srv : Server} {action : Action} {c : ClientPtr} {clnt : Client}

theorem drivenFrom_append {before first second : List (Server × Action)} :
    DrivenFrom platform endpoint jansson loads before (first ++ second) ↔
      DrivenFrom platform endpoint jansson loads before first ∧
        DrivenFrom platform endpoint jansson loads (before ++ first) second := by
  induction first generalizing before with
  | nil => simp [DrivenFrom]
  | cons entry rest ih =>
      obtain ⟨mid, action⟩ := entry
      simp [DrivenFrom, ih, and_assoc]

theorem driven_append : Driven platform endpoint jansson loads (history ++ [(mid, action)]) ↔
    Driven platform endpoint jansson loads history ∧
      Follows platform endpoint jansson loads history mid action := by
  simp [Driven, drivenFrom_append, DrivenFrom]

theorem Driven.follows {after : List (Server × Action)}
    (h : Driven platform endpoint jansson loads (history ++ (mid, action) :: after)) :
    Driven platform endpoint jansson loads history ∧
      Follows platform endpoint jansson loads history mid action := by
  simp only [Driven, drivenFrom_append, DrivenFrom, List.nil_append] at h
  exact ⟨h.1, h.2.1⟩

namespace Server

theorem handled_append {first second : List (Server × Action)} :
    handled (first ++ second) c = handled first c ++ handled second c := by
  simp [handled]

theorem handled_singleton_command {c' : ClientPtr} {jsondata : Json} {bindata : Bytes} :
    handled [(mid, .command c' jsondata bindata)] c =
      if c' = c then [⟨jsondata, bindata⟩] else [] := by
  simp [handled]

theorem handled_singleton_of_ne (h : ∀ jsondata bindata, action ≠ .command c jsondata bindata) :
    handled [(mid, action)] c = [] := by
  cases action with
  | command c' jsondata bindata =>
      have hne : c' ≠ c := by
        rintro rfl
        exact h jsondata bindata rfl
      simp [handled, hne]
  | accept fd ws => rfl
  | find fd => rfl
  | transfer c' sock => rfl
  | close c' => rfl

theorem stream_eq (hc : srv.clnts.cells c = some clnt) :
    srv.stream jansson loads c = clnt.sent.map (Outgoing.message jansson loads) := by
  rw [stream, sentTo_eq hc]

/-- No command is from a client that is still to come. -/
theorem Reaches.handled_fresh (h : Reaches jansson history srv) :
    ∀ c, srv.clnts.next ≤ c → handled history c = [] := by
  refine Reaches.induct (P := fun history srv => ∀ c, srv.clnts.next ≤ c → handled history c = [])
    jansson ?_ ?_ h
  · exact fun _ _ _ _ => rfl
  intro history mid action srv' hmid ih henabled _ hacts c hc
  have hnext : mid.clnts.next ≤ c := le_trans (Hub.Acts.next_le jansson hacts).1 hc
  rw [handled_append, ih c hnext, List.nil_append]
  apply handled_singleton_of_ne
  rintro jsondata bindata rfl
  obtain ⟨clnt, hclnt⟩ := hmid.inv.registry.mem_clients.mp henabled
  exact absurd (Heap.lt_next hclnt) (not_lt.mpr hnext)

/-- What has been handled is what the session has sent. -/
theorem Reaches.handled_sent (h : Reaches jansson history srv) :
    Driven platform endpoint jansson loads history → ∀ c clnt, srv.clnts.cells c = some clnt →
      handled history c <+: (endpoint c).requests platform (srv.stream jansson loads c) := by
  refine Reaches.induct (P := fun history srv => Driven platform endpoint jansson loads history →
    ∀ c clnt, srv.clnts.cells c = some clnt →
      handled history c <+: (endpoint c).requests platform (srv.stream jansson loads c))
    jansson ?_ ?_ h
  · intro start _ _ c clnt _
    exact List.nil_prefix
  · intro history mid action srv' hmid ih henabled _ hacts hdriven c clnt' hc'
    obtain ⟨hbefore, hfollows⟩ := driven_append.mp hdriven
    rw [handled_append]
    rcases tells hacts hc' with ⟨clnt, outs, hc, hsent, htells⟩ | ⟨hnew, _, _, fd, ws, rfl⟩
    · have hpart := ih hbefore c clnt hc
      have hgrows := (endpoint c).requests_grow platform (mid.stream jansson loads c)
        (outs.map (Outgoing.message jansson loads))
      have hstream : srv'.stream jansson loads c =
          mid.stream jansson loads c ++ outs.map (Outgoing.message jansson loads) := by
        rw [stream_eq hc', stream_eq hc, hsent, List.map_append]
      rw [hstream]
      by_cases hown : ∃ jsondata bindata, action = .command c jsondata bindata
      · obtain ⟨jsondata, bindata, rfl⟩ := hown
        rw [handled_singleton_command, if_pos rfl]
        refine List.IsPrefix.trans ?_ hgrows
        obtain ⟨rest, hrest⟩ := hpart
        have hnext : ((endpoint c).requests platform (mid.stream jansson loads c))[
            (handled history c).length]? = some ⟨jsondata, bindata⟩ := hfollows
        rw [← hrest] at hnext ⊢
        rw [List.getElem?_append_right le_rfl, Nat.sub_self] at hnext
        cases rest with
        | nil => simp at hnext
        | cons request rest =>
            have heq : request = ⟨jsondata, bindata⟩ := by simpa using hnext
            rw [heq]
            exact ⟨rest, by simp⟩
      · rw [handled_singleton_of_ne fun jsondata bindata heq => hown ⟨jsondata, bindata, heq⟩,
          List.append_nil]
        exact hpart.trans hgrows
    · rw [hmid.handled_fresh c (by rw [hnew]), handled_singleton_of_ne fun _ _ => Action.noConfusion]
      exact List.nil_prefix

end Server

end Dime
