import Dime.Server.Answers

/-!
# No lost wake-up

Over a whole run, a client that waits has an empty queue, and its waits are
answered one by one, as soon as a message is queued for it.
-/

noncomputable section

open Classical

namespace Dime

variable (jansson : Jansson Json)

/-- The numbers with which the waits of a client have been answered so far. -/
def Client.answers (clnt : Client) : List Int64 := clnt.sent.filterMap Outgoing.count

namespace Peer

variable {peer : Peer}

theorem answers_append {sent outs : List Outgoing} (hsent : peer.sent = sent ++ outs)
    (hplain : ∀ out ∈ outs, out.Plain) : peer.answers = sent.filterMap Outgoing.count := by
  rw [answers, hsent, List.filterMap_append, filterMap_plain fun out hout => (hplain out hout).2,
    List.append_nil]

/-- Queueing a message answers a wait. -/
theorem enqueue_answers (m : Queued) (peer : Peer) :
    (peer.enqueue jansson m).answers.length = peer.answers.length +
      if peer.waiting then 1 else 0 := by
  obtain ⟨_, _, _, hsent⟩ := peer.enqueue_spec jansson m
  rw [answers, hsent, List.filterMap_append, List.length_append]
  split <;> rfl

/-- A wait is answered or sets the flag. -/
theorem wait_spec (peer : Peer) :
    (peer.queue = [] ∧ peer.wait jansson = { peer with waiting := true }) ∨
    (peer.queue ≠ [] ∧ (peer.wait jansson).queue = peer.queue ∧
      (peer.wait jansson).waiting = peer.waiting ∧
      (peer.wait jansson).sent = peer.sent ++ [.json (countReply peer.queue.length)]) := by
  rw [wait]
  split
  next hpos => exact .inr ⟨List.ne_nil_of_length_pos hpos, rfl, rfl, rfl⟩
  next hzero => exact .inl ⟨List.length_eq_zero_iff.mp (by omega), rfl⟩

end Peer

namespace Server

variable {srv mid srv' : Server} {history : List (Server × Action)} {action : Action}
  {c : ClientPtr} {clnt : Client}

/-- The waits that a client has issued in a run. -/
def waits (history : List (Server × Action)) (c : ClientPtr) : Nat :=
  history.countP fun (_, action) => Hub.isWait c action

/-- The client never waits while an earlier wait is outstanding. -/
def OneWait (history : List (Server × Action)) (c : ClientPtr) : Prop :=
  ∀ mid action clnt, (mid, action) ∈ history → Hub.isWait c action = true →
    mid.clnts.cells c = some clnt → clnt.waiting = false

theorem waits_append : waits (history ++ [(mid, action)]) c =
    waits history c + if Hub.isWait c action then 1 else 0 := by
  simp [waits, List.countP_append, List.countP_singleton]

theorem OneWait.front (h : OneWait (history ++ [(mid, action)]) c) : OneWait history c :=
  fun mid' action' clnt hmem => h mid' action' clnt (List.mem_append_left _ hmem)

theorem OneWait.last (h : OneWait (history ++ [(mid, action)]) c)
    (hwait : Hub.isWait c action = true) {peer : Peer} (hpeer : mid.view.peers c = some peer) :
    peer.waiting = false := by
  obtain ⟨clnt, hc, rfl⟩ := Option.map_eq_some_iff.mp hpeer
  exact h mid action clnt (by simp) hwait hc

/-- An answer gives the length of a queue that is not empty. -/
def CountsUp (out : Outgoing) : Prop :=
  out.count ≠ none → ∃ n, 1 ≤ n ∧ out = .json (countReply n)

/-- What a run keeps of waits and answers. -/
structure Woken (history : List (Server × Action)) (srv : Server) : Prop where
  counted : ∀ c peer, srv.view.peers c = some peer → OneWait history c →
    waits history c = peer.answers.length + if peer.waiting then 1 else 0
  unanswered : ∀ c peer, srv.view.peers c = some peer → peer.waiting = true →
    ∃ before mid action after, history = before ++ (mid, action) :: after ∧
      Hub.isWait c action = true ∧ ∀ s a, (s, a) ∈ after →
        s.view.addressed jansson c a = [] ∧ Hub.isWait c a = false
  positive : ∀ c peer, srv.view.peers c = some peer → ∀ out ∈ peer.sent, CountsUp out
  fresh : ∀ c, srv.clnts.next ≤ c → waits history c = 0

theorem countsUp_of_plain {out : Outgoing} (h : out.Plain) : CountsUp out :=
  fun hcount => absurd h.2 hcount

theorem countsUp_count {n : Nat} (hn : 1 ≤ n) : CountsUp (.json (countReply n)) :=
  fun _ => ⟨n, hn, rfl⟩

/-- What a client has been given: every answer counts up. -/
theorem positive_given {hub : Hub} {peer given : Peer}
    (h : Hub.Given jansson hub action c peer given) (hpeer : ∀ out ∈ peer.sent, CountsUp out) :
    ∀ out ∈ given.sent, CountsUp out := by
  cases h with
  | queued m _ _ =>
      obtain ⟨_, _, _, hsent⟩ := peer.enqueue_spec jansson m
      rw [hsent]
      intro out hout
      rcases List.mem_append.mp hout with hold | hnew
      · exact hpeer out hold
      · split at hnew
        next =>
          rw [List.mem_singleton.mp hnew]
          exact countsUp_count (by simp)
        next => cases hnew
  | relayed m _ _ =>
      obtain ⟨_, _, _, _, hsent⟩ := peer.relay_spec jansson m
      rw [hsent]
      intro out hout
      rcases List.mem_append.mp hout with hold | hnew
      · exact hpeer out hold
      · obtain ⟨q, _, rfl⟩ := List.mem_map.mp hnew
        exact fun hcount => absurd rfl hcount
  | asked _ _ =>
      rcases peer.wait_spec jansson with ⟨_, heq⟩ | ⟨hne, _, _, hsent⟩
      · rw [heq]
        exact hpeer
      · rw [hsent]
        intro out hout
        rcases List.mem_append.mp hout with hold | hnew
        · exact hpeer out hold
        · rw [List.mem_singleton.mp hnew]
          exact countsUp_count (List.length_pos_iff.mpr hne)

/-- A client cannot issue a wait before it is there. -/
theorem lt_of_isWait {slack : MsgPtr → Nat} {new : Option MsgPtr} (h : mid.Inv slack new)
    (henabled : mid.Enabled action) (hwait : Hub.isWait c action = true) : c < mid.clnts.next := by
  cases action with
  | command c₀ jsondata bindata =>
      obtain ⟨rfl, _⟩ := Hub.isWait_iff.mp hwait
      obtain ⟨clnt, hc⟩ := h.registry.mem_clients.mp henabled
      exact Heap.lt_next hc
  | _ => cases hwait

theorem Woken.step (h : Woken jansson history mid) {slack : MsgPtr → Nat}
    (hinv : mid.Inv slack none) (henabled : mid.Enabled action)
    (hacts : mid.view.Acts jansson action srv'.view) :
    Woken jansson (history ++ [(mid, action)]) srv' := by
  constructor
  · intro c peer' hpeer' hone
    rw [waits_append]
    rcases hacts.peer jansson hpeer' with
      ⟨peer, given, outs, hpeer, hgiven, hplain, hsent, _, hwaiting⟩ |
      ⟨hc, hsent, _, hwaiting, _, hno⟩
    · have hcounted := h.counted c peer hpeer hone.front
      have hanswers : peer'.answers = given.answers := Peer.answers_append hsent hplain
      rw [hanswers, hwaiting]
      cases hgiven with
      | queued m _ hno =>
          obtain ⟨_, _, hcleared, _⟩ := peer.enqueue_spec jansson m
          rw [peer.enqueue_answers jansson m, hcleared, hno]
          simpa using hcounted
      | relayed m _ hno =>
          obtain ⟨_, _, hsame, hflag, _⟩ := peer.relay_spec jansson m
          rw [hsame, hflag, hno]
          simpa using hcounted
      | asked _ hyes =>
          have hidle := hone.last hyes hpeer
          rw [hidle] at hcounted
          rw [hyes]
          rcases peer.wait_spec jansson with ⟨_, heq⟩ | ⟨_, _, hflag, hpushed⟩
          · rw [heq]
            simpa [Peer.answers] using hcounted
          · have hanswer : ([Outgoing.json (countReply peer.queue.length)].filterMap
                Outgoing.count).length = 1 := rfl
            rw [hflag, hidle, Peer.answers, hpushed, List.filterMap_append, List.length_append,
              hanswer]
            simpa [Peer.answers] using hcounted
    · rw [h.fresh c (by rw [hc]; exact le_rfl), hno, Peer.answers, hsent, hwaiting]
      rfl
  · intro c peer' hpeer' hflag
    rcases hacts.peer jansson hpeer' with
      ⟨peer, given, outs, hpeer, hgiven, _, _, _, hwaiting⟩ | ⟨_, _, _, hwaiting, _, _⟩
    · rw [hwaiting] at hflag
      -- An event that is no wait and queues nothing leaves the flag as it was.
      have hkeep : peer.waiting = true → mid.view.addressed jansson c action = [] →
          Hub.isWait c action = false → ∃ before mid' action' after,
          history ++ [(mid, action)] = before ++ (mid', action') :: after ∧
            Hub.isWait c action' = true ∧ ∀ s a, (s, a) ∈ after →
              s.view.addressed jansson c a = [] ∧ Hub.isWait c a = false := by
        intro hpeerFlag haddressed hno
        obtain ⟨before, mid', action', after, rfl, hyes, hafter⟩ :=
          h.unanswered c peer hpeer hpeerFlag
        refine ⟨before, mid', action', after ++ [(mid, action)], by simp, hyes, fun s a hmem => ?_⟩
        rcases List.mem_append.mp hmem with hold | hnew
        · exact hafter s a hold
        · cases List.mem_singleton.mp hnew
          exact ⟨haddressed, hno⟩
      cases hgiven with
      | queued m _ _ =>
          obtain ⟨_, _, hcleared, _⟩ := peer.enqueue_spec jansson m
          rw [hcleared] at hflag
          cases hflag
      | relayed m haddressed hno =>
          obtain ⟨_, _, _, hsame, _⟩ := peer.relay_spec jansson m
          exact hkeep (hsame.symm.trans hflag) haddressed hno
      | asked _ hyes =>
          exact ⟨history, mid, action, [], rfl, hyes, fun _ _ hmem => absurd hmem List.not_mem_nil⟩
    · rw [hwaiting] at hflag
      cases hflag
  · intro c peer' hpeer' out hout
    rcases hacts.peer jansson hpeer' with
      ⟨peer, given, outs, hpeer, hgiven, hplain, hsent, _, _⟩ | ⟨_, hsent, _⟩
    · rw [hsent] at hout
      rcases List.mem_append.mp hout with hold | hnew
      · exact positive_given jansson hgiven (h.positive c peer hpeer) out hold
      · exact countsUp_of_plain (hplain out hnew)
    · rw [hsent] at hout
      cases hout
  · intro c hc
    have hle : mid.clnts.next ≤ c := le_trans (Hub.Acts.next_le jansson hacts).1 hc
    rw [waits_append, h.fresh c hle]
    split
    next hyes => exact absurd (lt_of_isWait hinv henabled hyes) (not_lt.mpr hle)
    next => rfl

theorem Reaches.woken (h : Reaches jansson history srv) : Woken jansson history srv := by
  refine Reaches.induct jansson (fun start hinit => ?_)
    (fun history mid action srv' hmid ih henabled _ hacts =>
      ih.step jansson hmid.inv henabled hacts) h
  have hnone : ∀ c peer, start.view.peers c ≠ some peer := by
    intro c peer hpeer
    obtain ⟨clnt, hc, _⟩ := Option.map_eq_some_iff.mp hpeer
    cases hinit
    cases hc
  exact ⟨fun c peer hpeer => absurd hpeer (hnone c peer),
    fun c peer hpeer => absurd hpeer (hnone c peer),
    fun c peer hpeer => absurd hpeer (hnone c peer), fun _ _ => rfl⟩

end Server

open Server

/-- No lost wake-up. Who waits has an empty queue; a command that queues a message
for a waiting client tells it the length of the queue, once, and clears the flag.
So the waits of a client that has one outstanding at a time are answered one by one,
the last of them is unanswered only while nothing is queued, and the numbers are at
least one (as `size_t`, before the cast to `json_int_t`). -/
theorem no_lost_wakeup {history : List (Server × Action)} {srv : Server}
    (h : Reaches jansson history srv) :
    (∀ c clnt, srv.clnts.cells c = some clnt → clnt.waiting = true → clnt.queue.toList = []) ∧
    (∀ c₀ clnt₀ c clnt jsondata bindata m, srv.clnts.cells c₀ = some clnt₀ →
      srv.clnts.cells c = some clnt → clnt.waiting = true →
      srv.view.addressed jansson c (.command c₀ jsondata bindata) = [m] →
      ∃ srv' clnt' outs, srv.perform jansson (.command c₀ jsondata bindata) = .ok srv' ∧
        srv'.clnts.cells c = some clnt' ∧ srv'.pending clnt' = srv.pending clnt ++ [m] ∧
        clnt'.sent = clnt.sent ++ [.json (countReply clnt'.queue.len)] ++ outs ∧
        (∀ out ∈ outs, out.count = none) ∧ clnt'.waiting = false) ∧
    (∀ c clnt, srv.clnts.cells c = some clnt → OneWait history c →
      waits history c = clnt.answers.length + if clnt.waiting then 1 else 0) ∧
    (∀ c clnt, srv.clnts.cells c = some clnt → clnt.waiting = true →
      ∃ before mid action after, history = before ++ (mid, action) :: after ∧
        Hub.isWait c action = true ∧ ∀ s a, (s, a) ∈ after →
          s.view.addressed jansson c a = [] ∧ Hub.isWait c a = false) ∧
    (∀ c clnt out, srv.clnts.cells c = some clnt → out ∈ clnt.sent → out.count ≠ none →
      ∃ n, 1 ≤ n ∧ out = .json (countReply n) ∧
        (n < 2 ^ 63 → out.count.map Int64.toInt = some (n : Int))) := by
  have hwoken := h.woken
  have hpeer : ∀ c clnt, srv.clnts.cells c = some clnt →
      srv.view.peers c = some (clnt.view srv.content) := fun c clnt hc => by
    rw [view_peers, hc, Option.map_some]
  refine ⟨h.inv.quiet, ?_, fun c clnt hc => hwoken.counted c _ (hpeer c clnt hc),
    fun c clnt hc => hwoken.unanswered c _ (hpeer c clnt hc), fun c clnt out hc hout hcount => ?_⟩
  · intro c₀ clnt₀ c clnt jsondata bindata m hc₀ hc hwaiting haddressed
    obtain ⟨srv', clnt', outs, hrun, _, hc', hreplies, hflag, hqueue, hsent⟩ :=
      h.command jansson hc₀ hc jsondata bindata
    have hgiven : Hub.Given jansson srv.view (.command c₀ jsondata bindata) c
        (clnt.view srv.content)
        (srv.view.effect jansson c₀ jsondata bindata c (clnt.view srv.content)) :=
      Hub.effect_given jansson c₀ _
    generalize srv.view.effect jansson c₀ jsondata bindata c (clnt.view srv.content) = given
      at hflag hqueue hsent hgiven
    cases hgiven with
    | queued m' haddressed' _ =>
        rw [haddressed] at haddressed'
        cases haddressed'
        obtain ⟨_, hqueued, hcleared, hpushed⟩ := (clnt.view srv.content).enqueue_spec jansson m
        have hpending : srv'.pending clnt' = srv.pending clnt ++ [m] := hqueue.trans hqueued
        have hlength : clnt'.queue.len = (srv.pending clnt ++ [m]).length := by
          rw [← hpending, pending, List.length_map, Queue.length_toList]
        have hview : (clnt.view srv.content).waiting = true := hwaiting
        rw [hpushed, hview, if_pos rfl] at hsent
        refine ⟨srv', clnt', outs c, hrun, hc', hpending, ?_,
          fun out hout => (hreplies.plain c out hout).2, hflag.trans hcleared⟩
        rw [hlength]
        exact hsent
    | relayed m' haddressed' _ =>
        rw [haddressed] at haddressed'
        cases haddressed'
    | asked haddressed' _ =>
        rw [haddressed] at haddressed'
        cases haddressed'
  · obtain ⟨n, hn, rfl⟩ := hwoken.positive c _ (hpeer c clnt hc) out hout hcount
    refine ⟨n, hn, rfl, fun hlt => ?_⟩
    exact congrArg some (Int64.toInt_ofNat_of_lt hlt)

/-- A client has waited twice: once a `send` has answered it, once nothing yet. -/
theorem no_lost_wakeup_twice : ∃ history srv clnt, Reaches (compactJansson []) history srv ∧
    srv.clnts.cells 0 = some clnt ∧ clnt.answers = [1] ∧ clnt.queue.toList = [] ∧
      ∃ before mid action after, history = before ++ (mid, action) :: after ∧
        Hub.isWait 0 action = true := by
  have hscript : (script (compactJansson []) [.accept 3 false, .accept 4 false,
      .command 0 (namesRequest "join" ["g"]) [], .command 0 (nameRequest "wait" "") [],
      .command 1 (nameRequest "send" "g") [], .command 0 (syncRequest (-1)) [],
      .command 0 (nameRequest "wait" "") []]).bind (fun result =>
        (result.2.clnts.cells 0).map fun clnt => (clnt.answers, clnt.waiting)) =
      some ([1], true) := by decide +kernel
  obtain ⟨⟨history, srv⟩, hrun, hvalue⟩ := Option.bind_eq_some_iff.mp hscript
  obtain ⟨clnt, hc, hpair⟩ := Option.map_eq_some_iff.mp hvalue
  obtain ⟨hanswers, hwaiting⟩ := Prod.mk.inj hpair
  have h := script_reaches _ hrun
  obtain ⟨hquiet, _, _, hunanswered, _⟩ := no_lost_wakeup _ h
  obtain ⟨before, mid, action, after, hhistory, hwait, _⟩ := hunanswered 0 clnt hc hwaiting
  exact ⟨history, srv, clnt, h, hc, hanswers, hquiet 0 clnt hc hwaiting, before, mid, action, after,
    hhistory, hwait⟩

end Dime

end
