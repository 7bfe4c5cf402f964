import Dime.Clients.Reading
import Dime.Clients.JavaScript.EventLoop

/-!
# Calls that are not awaited

Where a call sends a request only while nothing is outstanding, every call hears the
answers to its own requests. Two calls with requests at the same time take each other's
place.
-/

namespace Dime.JavaScript

open Dialogue

/-! ## The function in `__recv` -/

/-- What that function finds in the buffer. -/
def received (parse : Bytes → Json) (buffer : Bytes) : Framing.Next Message :=
  if 12 ≤ buffer.length then
    if buffer.take 4 ≠ magic then .bad
    else
      let jsondataLen := BigEndian.decode ((buffer.drop 4).take 4)
      let bindataLen := BigEndian.decode ((buffer.drop 8).take 4)
      if 12 + jsondataLen + bindataLen ≤ buffer.length then
        .item ⟨parse ((buffer.drop 12).take jsondataLen),
          (buffer.drop (12 + jsondataLen)).take bindataLen⟩ (12 + jsondataLen + bindataLen)
      else .more
  else .more

theorem received_nil (parse : Bytes → Json) : received parse [] = .more := rfl

theorem length_header (m n : Nat) : (Socket.header m n).length = 12 := by
  simp [Socket.header, magic]

theorem Frame.length_bytes (frame : Frame) :
    frame.bytes.length = 12 + frame.jsondata.length + frame.bindata.length := by
  rw [Frame.bytes, List.length_append, List.length_append, length_header, Nat.add_assoc]

/-- The parts of a buffer that begins with a header. -/
theorem header_parts {m n : Nat} (hm : m < 2 ^ 32) (hn : n < 2 ^ 32) (rest : Bytes) :
    (Socket.header m n ++ rest).take 4 = magic ∧
      BigEndian.decode (((Socket.header m n ++ rest).drop 4).take 4) = m ∧
      BigEndian.decode (((Socket.header m n ++ rest).drop 8).take 4) = n ∧
      (Socket.header m n ++ rest).drop 12 = rest := by
  have hlength (n : Nat) : (BigEndian.encode 4 n).length = 4 := BigEndian.length_encode 4 n
  have hmagic : magic.length = 4 := rfl
  have hsize : (256 : Nat) ^ 4 = 2 ^ 32 := by decide
  unfold Socket.header
  refine ⟨?_, ?_, ?_, ?_⟩
  · rw [List.append_assoc, List.append_assoc, List.take_left' hmagic]
  · rw [List.append_assoc, List.append_assoc, List.drop_left' hmagic, List.take_left' (hlength m)]
    exact BigEndian.decode_encode_of_lt (by omega)
  · have height : (magic ++ BigEndian.encode 4 m).length = 8 := by simp [hmagic]
    rw [List.append_assoc (magic ++ BigEndian.encode 4 m), List.drop_left' height,
      List.take_left' (hlength n)]
    exact BigEndian.decode_encode_of_lt (by omega)
  · exact List.drop_left' (length_header m n)

/-- The function finds the frames of the server, and waits for the rest of one. -/
theorem reads_frame (parse : Bytes → Json) (frame : Frame) :
    Framing.Reads Frame.bytes (Frame.message parse) (received parse) frame := by
  constructor
  · intro hnil
    have hlength := frame.length_bytes
    rw [hnil, List.length_nil] at hlength
    omega
  · intro rest
    obtain ⟨hmagic, hjsondata, hbindata, hdrop⟩ :=
      header_parts frame.jsondata_lt frame.bindata_lt (frame.jsondata ++ (frame.bindata ++ rest))
    have hbytes : frame.bytes ++ rest = Socket.header frame.jsondata.length frame.bindata.length ++
        (frame.jsondata ++ (frame.bindata ++ rest)) := by
      simp [Frame.bytes]
    have hlength : 12 + frame.jsondata.length + frame.bindata.length ≤ (frame.bytes ++ rest).length := by
      rw [List.length_append, frame.length_bytes]
      exact Nat.le_add_right _ _
    rw [hbytes] at hlength ⊢
    unfold received
    rw [if_pos (by omega), if_neg (not_not.mpr hmagic), hjsondata, hbindata]
    dsimp only
    rw [if_pos hlength, ← List.drop_drop, hdrop, List.take_left, List.drop_left, List.take_left,
      frame.length_bytes]
    rfl
  · intro front hfront hne
    have hlength : front.length < frame.bytes.length :=
      lt_of_le_of_ne hfront.length_le fun heq => hne (hfront.eq_of_length heq)
    unfold received
    by_cases htwelve : 12 ≤ front.length
    · -- the header is there as a whole
      obtain ⟨rest, rfl⟩ : ∃ rest, front =
          Socket.header frame.jsondata.length frame.bindata.length ++ rest := by
        obtain ⟨rest, hrest⟩ := List.prefix_of_prefix_length_le
          (List.prefix_append (Socket.header frame.jsondata.length frame.bindata.length)
            (frame.jsondata ++ frame.bindata)) hfront (by rw [length_header]; exact htwelve)
        exact ⟨rest, hrest.symm⟩
      obtain ⟨hmagic, hjsondata, hbindata, _⟩ :=
        header_parts frame.jsondata_lt frame.bindata_lt rest
      rw [if_pos htwelve, if_neg (not_not.mpr hmagic), hjsondata, hbindata]
      rw [frame.length_bytes] at hlength
      exact if_neg (Nat.not_le.mpr hlength)
    · exact if_neg htwelve

section

variable {Env α : Type} {parse : Bytes → Json} {page : Page Env α} {i : Nat}

theorem callback_more (h : received parse page.recvbuffer = .more) : page.callback parse i = page := by
  unfold received at h
  unfold Page.callback
  by_cases htwelve : 12 ≤ page.recvbuffer.length
  · rw [if_pos htwelve] at h ⊢
    by_cases hmagic : page.recvbuffer.take 4 ≠ magic
    · rw [if_pos hmagic] at h
      cases h
    · rw [if_neg hmagic] at h
      dsimp only at h ⊢
      split at h
      · cases h
      next hcut => rw [if_neg hmagic, if_neg hcut]
  · exact if_neg htwelve

theorem callback_item {message : Message} {size : Nat}
    (h : received parse page.recvbuffer = .item message size) :
    page.callback parse i = Page.resolve i message
      { page with recvbuffer := page.recvbuffer.drop size, recvcallback := none } := by
  unfold received at h
  unfold Page.callback
  by_cases htwelve : 12 ≤ page.recvbuffer.length
  · rw [if_pos htwelve] at h ⊢
    by_cases hmagic : page.recvbuffer.take 4 ≠ magic
    · rw [if_pos hmagic] at h
      cases h
    · rw [if_neg hmagic] at h
      dsimp only at h ⊢
      split at h
      next hwhole =>
        cases h
        rw [if_neg hmagic, if_pos hwhole]
      · cases h
  · rw [if_neg htwelve] at h
    cases h

end

/-! ## What is outstanding -/

section

variable {Env α : Type} {answer : Env → Message → Env × List Frame} {parse : Bytes → Json}
  {proper : Message → List Message → Prop} {calls : List (Method α)} {client : DimeClient}
  {page : Page Env α} {owner i : Nat} {due : List Message → Prop} {left : List Message}

/-- What the owner of the connection can still get: the answer to a request that is on its
way, or the frames that have not been handed out. `due` are the messages that these can
be, and `left` those that the server has sent already. -/
inductive Outstanding (parse : Bytes → Json) (proper : Message → List Message → Prop)
    (page : Page Env α) (owner : Nat) : (List Message → Prop) → List Message → Prop
  | asked {request : Message} (requests : page.requests = [(owner, request)])
      (stream : page.stream = []) (recvbuffer : page.recvbuffer = []) :
      Outstanding parse proper page owner (proper request) []
  | coming {frames : List Frame} (requests : page.requests = [])
      (bytes : page.recvbuffer ++ page.stream = Framing.stream Frame.bytes frames) :
      Outstanding parse proper page owner (fun messages => messages = frames.map (Frame.message parse))
        (frames.map (Frame.message parse))

def Activity.Reads (proper : Message → List Message → Prop) (activity : Activity α)
    (messages : List Message) : Prop :=
  match activity with
  | .ready method => method.Reads proper (fun _ _ => True) messages
  | .stopped pause => pause.Reads proper (fun _ _ => True) messages

/-- What becomes of the call with some messages. -/
def Activity.outcome (activity : Activity α) (client : DimeClient) (messages : List Message) :
    Outcome String α :=
  match activity with
  | .ready method => (hear method client messages).outcome
  | .stopped pause => pause.outcome client messages

/-- All that is outstanding belongs to one call, and every other call has heard all answers
to its own requests. Only the owner waits. -/
structure Orderly (parse : Bytes → Json) (proper : Message → List Message → Prop)
    (calls : List (Method α)) (client : DimeClient) (page : Page Env α) (owner : Nat)
    (due : List Message → Prop) (left : List Message) : Prop where
  unchanged : page.client = client
  outstanding : Outstanding parse proper page owner due left
  reads : ∀ i task, page.tasks[i]? = some task → ∀ messages,
    (if i = owner then due messages else messages = []) → task.activity.Reads proper messages
  heard : ∀ i task, page.tasks[i]? = some task →
    task.heard ++ (if i = owner then left else []) = page.repliesTo parse i
  history : ∀ (i : Nat) (task : Task α) (call : Method α), page.tasks[i]? = some task →
    calls[i]? = some call → ∀ more,
      (hear call client (task.heard ++ more)).outcome = task.activity.outcome client more
  waiting : ∀ i next heard, page.tasks[i]? = some ⟨.stopped (.awaiting next), heard⟩ →
    page.recvcallback = some i
  callback : ∀ i, page.recvcallback = some i →
    ∃ next heard, page.tasks[i]? = some ⟨.stopped (.awaiting next), heard⟩

/-- The function in `__recv` has looked at what is in the buffer. -/
def Checked (parse : Bytes → Json) (page : Page Env α) : Prop :=
  page.recvcallback ≠ none → received parse page.recvbuffer = .more

theorem eq_of_modify {β : Type} {l : List β} {f : β → β} {j : Nat} {b : β}
    (h : (l.modify i f)[j]? = some b) : ∃ a, l[j]? = some a ∧ b = if i = j then f a else a := by
  rw [List.getElem?_modify] at h
  obtain ⟨a, ha, hb⟩ := Option.map_eq_some_iff.mp h
  exact ⟨a, ha, hb.symm⟩

theorem Orderly.eq_owner (h : Orderly parse proper calls client page owner due left)
    {next : Message → Method α} {heard : List Message}
    (htask : page.tasks[i]? = some ⟨.stopped (.awaiting next), heard⟩) : i = owner := by
  by_contra hne
  exact h.reads i _ htask [] (by rw [if_neg hne])

/-- The function in `__recv` hands the next frame of the owner to the owner. -/
theorem Orderly.run_callback (h : Orderly parse proper calls client page owner due left)
    (hi : page.recvcallback = some i) :
    ∃ due' left', Orderly parse proper calls client (page.callback parse i) owner due' left' ∧
      Checked parse (page.callback parse i) := by
  have hmore : received parse page.recvbuffer = .more → ∃ due' left',
      Orderly parse proper calls client (page.callback parse i) owner due' left' ∧
        Checked parse (page.callback parse i) := by
    intro hmore
    rw [callback_more hmore]
    exact ⟨due, left, h, fun _ => hmore⟩
  obtain ⟨next, heard, htask⟩ := h.callback i hi
  obtain rfl := h.eq_owner htask
  cases h.outstanding with
  | asked _ _ recvbuffer =>
      apply hmore
      rw [recvbuffer]
      exact received_nil parse
  | @coming frames requests bytes =>
      have hpart : page.recvbuffer <+: Framing.stream Frame.bytes frames := ⟨page.stream, bytes⟩
      -- the buffer is cut off within a frame, or starts with a whole one
      obtain hrest | ⟨frame, frames, tail, rfl, hbuffer, _⟩ := Framing.prefix_stream_cases hpart
      · exact hmore (Framing.next_rest (received_nil parse) (fun frame _ => reads_frame parse frame) hrest)
      · have hitem : received parse page.recvbuffer = .item (frame.message parse) frame.bytes.length := by
          rw [hbuffer]
          exact (reads_frame parse frame).complete tail
        rw [callback_item hitem]
        have hdrop : page.recvbuffer.drop frame.bytes.length = tail := by
          rw [hbuffer, List.drop_left]
        rw [hbuffer, Framing.stream_cons, List.append_assoc, List.append_cancel_left_eq] at bytes
        -- the owner hears the frame, and every other task stays as it is
        refine ⟨fun messages => messages = frames.map (Frame.message parse),
          frames.map (Frame.message parse), ⟨h.unchanged, .coming requests ?_, ?_, ?_, ?_, ?_, ?_⟩,
          fun hsome => absurd rfl hsome⟩
        · change page.recvbuffer.drop frame.bytes.length ++ page.stream = _
          rw [hdrop]
          exact bytes
        · intro j task hj messages hmessages
          obtain ⟨old, hold, rfl⟩ := eq_of_modify hj
          by_cases hij : i = j
          · subst hij
            cases htask.symm.trans hold
            rw [if_pos rfl] at hmessages ⊢
            subst hmessages
            exact h.reads i _ htask (frame.message parse :: frames.map (Frame.message parse))
              (by rw [if_pos rfl]; rfl)
          · rw [if_neg fun heq => hij heq.symm] at hmessages
            rw [if_neg hij]
            exact h.reads j old hold messages (by rw [if_neg fun heq => hij heq.symm]; exact hmessages)
        · intro j task hj
          obtain ⟨old, hold, rfl⟩ := eq_of_modify hj
          have hheard := h.heard j old hold
          by_cases hij : i = j
          · subst hij
            cases htask.symm.trans hold
            rw [if_pos rfl] at hheard ⊢
            rw [if_pos rfl, List.append_assoc]
            exact hheard
          · have hji : ¬ j = i := fun heq => hij heq.symm
            rw [if_neg hji] at hheard
            rw [if_neg hij, if_neg hji]
            exact hheard
        · intro j task call hj hcall more
          obtain ⟨old, hold, rfl⟩ := eq_of_modify hj
          by_cases hij : i = j
          · subst hij
            cases htask.symm.trans hold
            rw [if_pos rfl, List.append_assoc]
            exact h.history i _ call htask hcall (frame.message parse :: more)
          · rw [if_neg hij]
            exact h.history j old call hold hcall more
        · intro j next' heard' hj
          obtain ⟨old, hold, hnew⟩ := eq_of_modify hj
          by_cases hij : i = j
          · subst hij
            cases htask.symm.trans hold
            rw [if_pos rfl] at hnew
            cases hnew
          · rw [if_neg hij] at hnew
            subst hnew
            exact absurd (h.eq_owner hold).symm hij
        · intro j hj
          cases hj

/-- The answers that the server has sent in the end are those that it had sent, and the
one to this request. -/
theorem repliesTo_serve {request : Message} {requests : List (Nat × Message)} (j : Nat) :
    (page.serve answer i request requests).repliesTo parse j = page.repliesTo parse j ++
      if j = i then (answer page.env request).2.map (Frame.message parse) else [] := by
  unfold Page.repliesTo Page.serve
  rw [List.flatMap_append, List.flatMap_singleton]
  by_cases hij : i = j
  · rw [if_pos hij, if_pos hij.symm]
  · rw [if_neg hij, if_neg fun heq => hij heq.symm]

theorem Orderly.run_serve (h : Orderly parse proper calls client page owner due left)
    (hproper : ∀ env request, proper request ((answer env request).2.map (Frame.message parse)))
    {request : Message} {requests : List (Nat × Message)}
    (hrequests : page.requests = (i, request) :: requests) :
    ∃ due' left', Orderly parse proper calls client (page.serve answer i request requests) owner due'
      left' ∧ Checked parse (page.serve answer i request requests) := by
  cases h.outstanding with
  | coming none _ =>
      rw [none] at hrequests
      cases hrequests
  | asked asked stream recvbuffer =>
      rw [asked] at hrequests
      cases hrequests
      refine ⟨fun messages => messages = (answer page.env request).2.map (Frame.message parse),
        (answer page.env request).2.map (Frame.message parse),
        ⟨h.unchanged, .coming rfl ?_, ?_, ?_, h.history, h.waiting, h.callback⟩, ?_⟩
      · change page.recvbuffer ++ (page.stream ++ _) = _
        rw [recvbuffer, stream, List.nil_append, List.nil_append]
      · intro j task hj messages hmessages
        apply h.reads j task hj messages
        by_cases hown : j = owner
        · rw [if_pos hown] at hmessages ⊢
          rw [hmessages]
          exact hproper page.env request
        · rw [if_neg hown] at hmessages ⊢
          exact hmessages
      · intro j task hj
        have hheard := h.heard j task hj
        rw [ite_self, List.append_nil] at hheard
        rw [repliesTo_serve, hheard]
      · intro _
        change received parse page.recvbuffer = .more
        rw [recvbuffer]
        exact received_nil parse

theorem Page.onmessage_none {data : Bytes} (h : page.recvcallback = none) :
    page.onmessage parse data = { page with recvbuffer := page.recvbuffer ++ data } := by
  unfold Page.onmessage
  dsimp only
  rw [h]

theorem Page.onmessage_some {data : Bytes} (h : page.recvcallback = some i) :
    page.onmessage parse data = Page.callback parse i { page with recvbuffer := page.recvbuffer ++ data } := by
  unfold Page.onmessage
  dsimp only
  rw [h]

theorem Orderly.run_onmessage (h : Orderly parse proper calls client page owner due left)
    {data stream : Bytes} (harrives : page.stream = data ++ stream)
    (hdata : data ≠ []) :
    ∃ due' left', Orderly parse proper calls client
        (Page.onmessage parse data { page with stream := stream }) owner due' left' ∧
      Checked parse (Page.onmessage parse data { page with stream := stream }) := by
  cases h.outstanding with
  | asked _ empty _ =>
      rw [empty] at harrives
      exact absurd (List.append_eq_nil_iff.mp harrives.symm).1 hdata
  | @coming frames requests bytes =>
      have hbuffered : Orderly parse proper calls client
          { page with stream := stream, recvbuffer := page.recvbuffer ++ data } owner
          (fun messages => messages = frames.map (Frame.message parse))
          (frames.map (Frame.message parse)) := by
        refine ⟨h.unchanged, .coming requests ?_, h.reads, h.heard, h.history, h.waiting, h.callback⟩
        change page.recvbuffer ++ data ++ stream = _
        rw [List.append_assoc, ← harrives]
        exact bytes
      obtain hcallback | ⟨i, hcallback⟩ := Option.eq_none_or_eq_some page.recvcallback
      · have hpage : Page.onmessage parse data { page with stream := stream } =
            { page with stream := stream, recvbuffer := page.recvbuffer ++ data } :=
          Page.onmessage_none hcallback
        rw [hpage]
        exact ⟨_, _, hbuffered, fun hsome => absurd hcallback hsome⟩
      · have hpage : Page.onmessage parse data { page with stream := stream } =
            Page.callback parse i { page with stream := stream, recvbuffer := page.recvbuffer ++ data } :=
          Page.onmessage_some hcallback
        rw [hpage]
        exact hbuffered.run_callback hcallback

/-- A page on which a call has stopped after some requests. -/
def Page.stopped (i : Nat) (requests : List Message)
    (stop : Pause DimeClient String Message Message α) (page : Page Env α) : Page Env α :=
  { page with
    requests := page.requests ++ requests.map fun request => (i, request)
    tasks := page.tasks.modify i fun task => { task with activity := .stopped stop } }

theorem Page.proceed_awaiting {method : Method α} {next : Message → Method α} {requests : List Message}
    (h : method.proceed page.client = (page.client, requests, .awaiting next)) :
    page.proceed parse i method =
      Page.callback parse i { page.stopped i requests (.awaiting next) with recvcallback := some i } := by
  unfold Page.proceed
  simp only [h]
  rfl

theorem Page.proceed_over {method : Method α} {stop : Pause DimeClient String Message Message α}
    {requests : List Message} (h : method.proceed page.client = (page.client, requests, stop))
    (hstop : ∀ next, stop ≠ .awaiting next) :
    page.proceed parse i method = page.stopped i requests stop := by
  unfold Page.proceed
  simp only [h]
  cases stop with
  | awaiting next => exact absurd rfl (hstop next)
  | settled result => rfl
  | exhausted => rfl

/-- A call that has gone on, where what is outstanding belongs to `owner'` now. -/
theorem Orderly.stopped (h : Orderly parse proper calls client page owner due left)
    {method : Method α} {heard : List Message}
    (hready : page.tasks[i]? = some ⟨.ready method, heard⟩) {requests : List Message}
    {stop : Pause DimeClient String Message Message α}
    (hproceed : method.proceed page.client = (page.client, requests, stop))
    {owner' : Nat} {due' : List Message → Prop} {left' : List Message} {callback : Option Nat}
    (houtstanding : Outstanding parse proper { page.stopped i requests stop with recvcallback := callback }
      owner' due' left')
    (hreads : ∀ messages, (if i = owner' then due' messages else messages = []) →
      stop.Reads proper (fun _ _ => True) messages)
    (hothers : ∀ j, j ≠ i → ∀ messages, (if j = owner' then due' messages else messages = []) →
      if j = owner then due messages else messages = [])
    (hleft : ∀ j, (if j = owner' then left' else []) = if j = owner then left else [])
    (hwaiting : (∃ next, stop = .awaiting next) ∧ callback = some i ∧ page.recvcallback = none ∨
      (∀ next, stop ≠ .awaiting next) ∧ callback = page.recvcallback) :
    Orderly parse proper calls client { page.stopped i requests stop with recvcallback := callback }
      owner' due' left' := by
  -- the call is not one of those that wait
  have hother : ∀ j, page.recvcallback = some j → i ≠ j := by
    intro j hj heq
    obtain ⟨next, heard', htask⟩ := h.callback j hj
    rw [← heq, hready] at htask
    cases htask
  refine ⟨h.unchanged, houtstanding, ?_, ?_, ?_, ?_, ?_⟩
  · intro j task hj messages hmessages
    obtain ⟨old, hold, rfl⟩ := eq_of_modify hj
    by_cases hij : i = j
    · subst hij
      rw [if_pos rfl]
      exact hreads messages hmessages
    · rw [if_neg hij]
      exact h.reads j old hold messages (hothers j (fun heq => hij heq.symm) messages hmessages)
  · intro j task hj
    obtain ⟨old, hold, rfl⟩ := eq_of_modify hj
    have hheard := h.heard j old hold
    rw [hleft j]
    by_cases hij : i = j
    · rw [if_pos hij]
      exact hheard
    · rw [if_neg hij]
      exact hheard
  · intro j task call hj hcall more
    obtain ⟨old, hold, rfl⟩ := eq_of_modify hj
    have hhistory := h.history j old call hold hcall more
    by_cases hij : i = j
    · subst hij
      cases hready.symm.trans hold
      rw [if_pos rfl, hhistory]
      change (hear method client more).outcome = stop.outcome client more
      rw [method.outcome_proceed, ← h.unchanged, hproceed]
    · rw [if_neg hij]
      exact hhistory
  · intro j next heard' hj
    obtain ⟨old, hold, hnew⟩ := eq_of_modify hj
    obtain ⟨_, hcallback, hnone⟩ | ⟨hstop, hcallback⟩ := hwaiting
    · change callback = some j
      by_cases hij : i = j
      · rw [hcallback, hij]
      · rw [if_neg hij] at hnew
        subst hnew
        rw [h.waiting j next heard' hold] at hnone
        cases hnone
    · change callback = some j
      by_cases hij : i = j
      · rw [if_pos hij] at hnew
        cases hnew
        exact absurd rfl (hstop next)
      · rw [if_neg hij] at hnew
        subst hnew
        rw [hcallback]
        exact h.waiting j next heard' hold
  · intro j hj
    change callback = some j at hj
    obtain ⟨⟨next, hstop⟩, hcallback, _⟩ | ⟨_, hcallback⟩ := hwaiting
    · rw [hcallback] at hj
      cases hj
      refine ⟨next, heard, ?_⟩
      change (page.tasks.modify i _)[i]? = _
      rw [List.getElem?_modify, hready, hstop]
      exact congrArg some (if_pos rfl)
    · rw [hcallback] at hj
      obtain ⟨next, heard', htask⟩ := h.callback j hj
      refine ⟨next, heard', ?_⟩
      change (page.tasks.modify i _)[j]? = _
      rw [List.getElem?_modify, htask]
      exact congrArg some (if_neg (hother j hj))

/-- Some messages are due. -/
theorem Outstanding.exists_due (h : Outstanding parse proper page owner due left)
    (hanswer : ∀ request, ∃ messages, proper request messages) : ∃ messages, due messages := by
  cases h with
  | asked => exact hanswer _
  | coming => exact ⟨_, rfl⟩

/-- On an idle page nothing is due. -/
theorem Outstanding.of_idle (h : Outstanding parse proper page owner due left) (hidle : page.Idle) :
    (∀ messages, due messages ↔ messages = []) ∧ left = [] := by
  obtain ⟨hrequests, hstream, hrecvbuffer⟩ := hidle
  cases h with
  | asked requests =>
      rw [hrequests] at requests
      cases requests
  | @coming frames _ bytes =>
      rw [hstream, hrecvbuffer] at bytes
      cases frames with
      | nil => exact ⟨fun _ => Iff.rfl, rfl⟩
      | cons frame frames =>
          rw [Framing.stream_cons] at bytes
          exact absurd (List.append_eq_nil_iff.mp bytes.symm).1 (reads_frame parse frame).pos

theorem Orderly.run_stopped (h : Orderly parse proper calls client page owner due left)
    (hchecked : Checked parse page) {method : Method α} {heard : List Message}
    (hready : page.tasks[i]? = some ⟨.ready method, heard⟩) {requests : List Message}
    {stop : Pause DimeClient String Message Message α}
    (hproceed : method.proceed page.client = (page.client, requests, stop))
    {owner' : Nat} {due' : List Message → Prop} {left' : List Message}
    (houtstanding : ∀ callback, Outstanding parse proper
      { page.stopped i requests stop with recvcallback := callback } owner' due' left')
    (hreads : ∀ messages, (if i = owner' then due' messages else messages = []) →
      stop.Reads proper (fun _ _ => True) messages)
    (hothers : ∀ j, j ≠ i → ∀ messages, (if j = owner' then due' messages else messages = []) →
      if j = owner then due messages else messages = [])
    (hleft : ∀ j, (if j = owner' then left' else []) = if j = owner then left else [])
    (hwaiting : ∀ next, stop = .awaiting next → page.recvcallback = none) :
    ∃ owner' due' left', Orderly parse proper calls client (page.proceed parse i method) owner' due'
      left' ∧ Checked parse (page.proceed parse i method) := by
  by_cases hstop : ∃ next, stop = .awaiting next
  · obtain ⟨next, rfl⟩ := hstop
    have hstopped := h.stopped hready hproceed (houtstanding (some i)) hreads hothers hleft
      (.inl ⟨⟨next, rfl⟩, rfl, hwaiting next rfl⟩)
    rw [Page.proceed_awaiting hproceed]
    exact ⟨owner', hstopped.run_callback rfl⟩
  · have hnot : ∀ next, stop ≠ .awaiting next := fun next heq => hstop ⟨next, heq⟩
    have hstopped := h.stopped hready hproceed (houtstanding page.recvcallback) hreads hothers hleft
      (.inr ⟨hnot, rfl⟩)
    rw [Page.proceed_over hproceed hnot]
    exact ⟨owner', due', left', hstopped, hchecked⟩

/-- A call that goes on sends a request only where nothing is outstanding. -/
theorem Orderly.run_proceed (h : Orderly parse proper calls client page owner due left)
    (hchecked : Checked parse page) {method : Method α} {heard : List Message}
    (hready : page.tasks[i]? = some ⟨.ready method, heard⟩)
    (hnonempty : ∀ request messages, proper request messages → messages ≠ [])
    (hanswer : ∀ request, ∃ messages, proper request messages)
    (hidle : (method.proceed page.client).2.1 ≠ [] → page.Idle) :
    ∃ owner' due' left', Orderly parse proper calls client (page.proceed parse i method) owner' due'
      left' ∧ Checked parse (page.proceed parse i method) := by
  have hmethod : ∀ messages, (if i = owner then due messages else messages = []) →
      _ := fun messages hmessages =>
    Prog.Reads.proceed (h.reads i _ hready messages hmessages) hnonempty hanswer page.client
  obtain ⟨messages, hmessages⟩ : ∃ messages, if i = owner then due messages else messages = [] := by
    split
    · exact h.outstanding.exists_due hanswer
    · exact ⟨[], rfl⟩
  obtain ⟨⟨self, requests, stop⟩, hproceed⟩ : ∃ result, method.proceed page.client = result := ⟨_, rfl⟩
  rw [hproceed] at hmethod hidle
  obtain ⟨hself, hsent⟩ := hmethod messages hmessages
  dsimp only at hself hsent hmethod hidle
  subst hself
  -- a call that waits owns the connection
  have hwaits : ∀ j, page.recvcallback = some j → j = owner ∧ j ≠ i := by
    intro j hj
    obtain ⟨next, heard', htask⟩ := h.callback j hj
    refine ⟨h.eq_owner htask, fun heq => ?_⟩
    rw [heq, hready] at htask
    cases htask
  obtain ⟨hnone, _⟩ | ⟨request, hrequest, _, _⟩ := hsent
  · subst hnone
    have hreads : ∀ messages, (if i = owner then due messages else messages = []) →
        stop.Reads proper (fun _ _ => True) messages := by
      intro messages hmessages
      obtain ⟨_, ⟨_, hreads⟩ | ⟨_, hsome, _⟩⟩ := hmethod messages hmessages
      · exact hreads
      · cases hsome
    have houtstanding : ∀ callback, Outstanding parse proper
        { page.stopped i [] stop with recvcallback := callback } owner due left := by
      intro callback
      have hrequests : page.requests ++ [] = page.requests := List.append_nil _
      cases h.outstanding with
      | asked requests stream recvbuffer => exact .asked (hrequests.trans requests) stream recvbuffer
      | coming requests bytes => exact .coming (hrequests.trans requests) bytes
    apply h.run_stopped hchecked hready hproceed houtstanding hreads
      (fun _ _ _ hmessages => hmessages) (fun _ => rfl)
    intro next hnext
    obtain hcallback | ⟨j, hj⟩ := Option.eq_none_or_eq_some page.recvcallback
    · exact hcallback
    · obtain ⟨hown, hji⟩ := hwaits j hj
      have hnot : ¬ i = owner := fun heq => hji (hown.trans heq.symm)
      have hstop := hreads [] (by rw [if_neg hnot])
      rw [hnext] at hstop
      exact absurd hstop id
  · subst hrequest
    have hpage : page.Idle := hidle (List.cons_ne_nil _ _)
    obtain ⟨hdue, hleft⟩ := h.outstanding.of_idle hpage
    have hnothing : ∀ j messages, (if j = owner then due messages else messages = []) ↔ messages = [] := by
      intro j messages
      split
      · exact hdue messages
      · exact Iff.rfl
    have hreads : ∀ messages, (if i = i then proper request messages else messages = []) →
        stop.Reads proper (fun _ _ => True) messages := by
      intro messages hmessages
      rw [if_pos rfl] at hmessages
      obtain ⟨_, ⟨hnone, _⟩ | ⟨request', hrequest, _, hreads⟩⟩ := hmethod [] ((hnothing i []).mpr rfl)
      · cases hnone
      · cases hrequest
        exact hreads messages hmessages
    have houtstanding : ∀ callback, Outstanding parse proper
        { page.stopped i [request] stop with recvcallback := callback } i (proper request) [] := by
      intro callback
      refine .asked ?_ hpage.2.1 hpage.2.2
      change page.requests ++ [(i, request)] = _
      rw [hpage.1]
      rfl
    apply h.run_stopped hchecked hready hproceed houtstanding hreads
    · intro j hji messages hmessages
      rw [if_neg hji] at hmessages
      exact (hnothing j messages).mpr hmessages
    · intro j
      rw [hleft, ite_self, ite_self]
    · intro next _
      obtain hcallback | ⟨j, hj⟩ := Option.eq_none_or_eq_some page.recvcallback
      · exact hcallback
      · obtain ⟨next', heard', htask⟩ := h.callback j hj
        exact absurd (h.reads j _ htask [] ((hnothing j []).mpr rfl)) id

end

end Dime.JavaScript
