import Mathlib.Data.List.ModifyLast
import Dime.Clients.Network

/-!
# Requests and their answers

What the server pushes to a client in answer to each of its requests, in a run: what it
pushes as it handles the request, and, for a `wait`, the message that tells of a message
later on.
-/

namespace Dime

open Dialogue

namespace Server

variable (jansson : Jansson Json) (loads : CString → Json)

/-- What an event does to the answers to the requests of a client. The message that makes
clients switch is no answer. -/
def note (c : ClientPtr) (mid : Server) (action : Action) (srv : Server)
    (exchanges : List (Message × List Message)) : List (Message × List Message) :=
  let pushed := (srv.sentTo c).drop (mid.sentTo c).length
  match action with
  | .command c' jsondata bindata =>
      if c' = c then
        exchanges ++ [(⟨jsondata, bindata⟩, pushed.map (Outgoing.message jansson loads))]
      else
        exchanges.modifyLast fun exchange => (exchange.1, exchange.2 ++
          (pushed.filter (· ≠ .json reregisterMeta)).map (Outgoing.message jansson loads))
  | _ => exchanges

/-- The requests of a client that have been handled, with the answers to them. -/
def exchanged (history : List (Server × Action)) (srv : Server) (c : ClientPtr) :
    List (Message × List Message) :=
  (history.zip (history.tail.map Prod.fst ++ [srv])).foldl
    (fun exchanges step => note jansson loads c step.1.1 step.1.2 step.2 exchanges) []

variable {jansson loads} {history : List (Server × Action)} {mid srv : Server} {action : Action}
  {c : ClientPtr} {clnt clnt' : Client} {outs : List Outgoing}
  {exchanges : List (Message × List Message)}

theorem exchanged_nil : exchanged jansson loads [] srv c = [] := rfl

theorem exchanged_append : exchanged jansson loads (history ++ [(mid, action)]) srv c =
    note jansson loads c mid action srv (exchanged jansson loads history mid c) := by
  cases history with
  | nil => rfl
  | cons first rest =>
      have hlength : (first :: rest).length = (rest.map Prod.fst ++ [mid]).length := by simp
      unfold exchanged
      rw [List.cons_append, List.tail_cons, List.tail_cons, List.map_append, List.map_singleton,
        ← List.cons_append, List.zip_append hlength, List.foldl_append]
      rfl

theorem drop_sentTo (hc : mid.clnts.cells c = some clnt) (hc' : srv.clnts.cells c = some clnt')
    (hsent : clnt'.sent = clnt.sent ++ outs) : (srv.sentTo c).drop (mid.sentTo c).length = outs := by
  rw [sentTo_eq hc, sentTo_eq hc', hsent, List.drop_left]

/-- A request of the client. -/
theorem note_own (jsondata : Json) (bindata : Bytes) (hc : mid.clnts.cells c = some clnt)
    (hc' : srv.clnts.cells c = some clnt') (hsent : clnt'.sent = clnt.sent ++ outs) :
    note jansson loads c mid (.command c jsondata bindata) srv exchanges =
      exchanges ++ [(⟨jsondata, bindata⟩, outs.map (Outgoing.message jansson loads))] := by
  rw [note, drop_sentTo hc hc' hsent]
  exact if_pos rfl

/-- A request of another client. -/
theorem note_other {c₀ : ClientPtr} (hne : c ≠ c₀) (jsondata : Json) (bindata : Bytes)
    (hc : mid.clnts.cells c = some clnt) (hc' : srv.clnts.cells c = some clnt')
    (hsent : clnt'.sent = clnt.sent ++ outs) :
    note jansson loads c mid (.command c₀ jsondata bindata) srv exchanges =
      exchanges.modifyLast fun exchange => (exchange.1, exchange.2 ++
        (outs.filter (· ≠ .json reregisterMeta)).map (Outgoing.message jansson loads)) := by
  rw [note, drop_sentTo hc hc' hsent]
  exact if_neg hne.symm

theorem note_nothing (hno : ∀ c₀ jsondata bindata, action ≠ .command c₀ jsondata bindata) :
    note jansson loads c mid action srv exchanges = exchanges := by
  cases action with
  | command c₀ jsondata bindata => exact absurd rfl (hno c₀ jsondata bindata)
  | accept fd ws => rfl
  | find fd => rfl
  | transfer c₀ sock => rfl
  | close c₀ => rfl

theorem modifyLast_self {α : Type} (l : List α) : (l.modifyLast fun x => x) = l := by
  rcases List.eq_nil_or_concat l with rfl | ⟨front, last, rfl⟩
  · rfl
  · rw [List.concat_eq_append, List.modifyLast_concat]

theorem map_fst_modifyLast {α β : Type} (f : β → β) (l : List (α × β)) :
    (l.modifyLast fun x => (x.1, f x.2)).map Prod.fst = l.map Prod.fst := by
  rcases List.eq_nil_or_concat l with rfl | ⟨front, last, rfl⟩
  · rfl
  · rw [List.concat_eq_append, List.modifyLast_concat]
    simp

/-- The requests are those that have been handled. -/
theorem exchanged_requests (history : List (Server × Action)) (srv : Server) (c : ClientPtr) :
    (exchanged jansson loads history srv c).map Prod.fst = handled history c := by
  induction history using List.reverseRecOn generalizing srv with
  | nil => rfl
  | append_singleton history step ih =>
      obtain ⟨mid, action⟩ := step
      rw [exchanged_append, handled_append, ← ih mid]
      cases action with
      | command c' jsondata bindata =>
          rw [handled_singleton_command]
          simp only [note]
          by_cases hown : c' = c
          · simp only [if_pos hown]
            rw [List.map_append, List.map_singleton]
          · simp only [if_neg hown]
            rw [map_fst_modifyLast fun messages => messages ++ _, List.append_nil]
      | accept fd ws => exact (List.append_nil _).symm
      | find fd => exact (List.append_nil _).symm
      | transfer c' sock => exact (List.append_nil _).symm
      | close c' => exact (List.append_nil _).symm

end Server

end Dime
