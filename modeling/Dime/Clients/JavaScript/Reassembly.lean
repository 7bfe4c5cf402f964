import Dime.Clients.JavaScript.Overlapping

/-!
# Successive calls of `__recv`

Message events and calls of `__recv` in any order, where a call is made only after the
promises of the calls before have been resolved.
-/

namespace Dime.JavaScript

open Dialogue

variable {Env : Type} {parse : Bytes → Json}

/-- The promise of a call has been resolved. -/
def Task.Resolved {α : Type} (task : Task α) : Prop := task.heard ≠ []

namespace Page

/-- A call of `__recv`. -/
def call (parse : Bytes → Json) (page : Page Env Message) : Page Env Message :=
  Page.proceed parse page.tasks.length DimeClient.recv
    { page with tasks := page.tasks ++ [⟨.ready DimeClient.recv, []⟩] }

/-- What happens on a page that only receives, with the data that have arrived. -/
inductive Receiving (parse : Bytes → Json) (client : DimeClient) (env : Env) :
    Bytes → Page Env Message → Prop
  | start : Receiving parse client env [] (start client env [])
  | onmessage {arrived : Bytes} {page : Page Env Message}
      (before : Receiving parse client env arrived page) (data : Bytes) :
      Receiving parse client env (arrived ++ data) (page.onmessage parse data)
  | call {arrived : Bytes} {page : Page Env Message} (before : Receiving parse client env arrived page)
      (resolved : ∀ task ∈ page.tasks, task.Resolved) :
      Receiving parse client env arrived (page.call parse)

end Page

/-- A call whose promise has been resolved with the message of a frame. -/
def resolvedTask (parse : Bytes → Json) (frame : Frame) : Task Message :=
  ⟨.ready (.done (frame.message parse)), [frame.message parse]⟩

/-- A call whose promise is pending. -/
def pendingTask : Task Message := ⟨.stopped (.awaiting .done), []⟩

/-- The calls have been resolved with the messages of the first frames, in their order, and
the buffer has what came behind them. Where a promise is pending, there is no complete
frame in the buffer. -/
inductive Reassembled (parse : Bytes → Json) (frames : List Frame) (arrived : Bytes)
    (page : Page Env Message) : Prop
  | settled (heard buffered todo : List Frame) (rest : Bytes)
      (frames_eq : frames = heard ++ (buffered ++ todo))
      (arrived_eq : arrived = Framing.stream Frame.bytes heard ++
        (Framing.stream Frame.bytes buffered ++ rest))
      (cut : Framing.Rest Frame.bytes rest todo)
      (tasks : page.tasks = heard.map (resolvedTask parse))
      (recvcallback : page.recvcallback = none)
      (recvbuffer : page.recvbuffer = Framing.stream Frame.bytes buffered ++ rest)
  | pending (heard todo : List Frame) (rest : Bytes) (frames_eq : frames = heard ++ todo)
      (arrived_eq : arrived = Framing.stream Frame.bytes heard ++ rest)
      (cut : Framing.Rest Frame.bytes rest todo)
      (tasks : page.tasks = heard.map (resolvedTask parse) ++ [pendingTask])
      (recvcallback : page.recvcallback = some heard.length)
      (recvbuffer : page.recvbuffer = rest)

/-! ## One event -/

theorem modify_concat {β : Type} (l : List β) (b : β) (f : β → β) :
    (l ++ [b]).modify l.length f = l ++ [f b] := by
  induction l with
  | nil => rfl
  | cons a l ih => exact congrArg (a :: ·) ih

variable {frames heard todo : List Frame} {arrived rest : Bytes} {page : Page Env Message}

/-- The function in `__recv` looks at the buffer while the last promise is pending. -/
theorem reassembled_callback (hframes : frames = heard ++ todo)
    (harrived : arrived = Framing.stream Frame.bytes heard ++ rest)
    (hpart : rest <+: Framing.stream Frame.bytes todo)
    (htasks : page.tasks = heard.map (resolvedTask parse) ++ [pendingTask])
    (hcallback : page.recvcallback = some heard.length) (hbuffer : page.recvbuffer = rest) :
    Reassembled parse frames arrived (page.callback parse heard.length) := by
  obtain hrest | ⟨frame, todo, tail, rfl, hfront, htail⟩ := Framing.prefix_stream_cases hpart
  · have hmore : received parse page.recvbuffer = .more := by
      rw [hbuffer]
      exact Framing.next_rest (received_nil parse) (fun frame _ => reads_frame parse frame) hrest
    rw [callback_more hmore]
    exact .pending heard todo rest hframes harrived hrest htasks hcallback hbuffer
  · -- the promise is resolved, and the frames behind the first one stay in the buffer
    have hitem : received parse page.recvbuffer = .item (frame.message parse) frame.bytes.length := by
      rw [hbuffer, hfront]
      exact (reads_frame parse frame).complete tail
    rw [callback_item hitem]
    obtain ⟨buffered, todo, rest', rfl, hbuffered, hcut⟩ := Framing.exists_split htail
    refine .settled (heard ++ [frame]) buffered todo rest' ?_ ?_ hcut ?_ rfl ?_
    · rw [hframes, List.append_assoc, List.singleton_append]
    · rw [harrived, hfront, hbuffered, Framing.stream_append, Framing.stream_cons,
        Framing.stream_nil, List.append_nil, List.append_assoc]
    · have hlength : heard.length = (heard.map (resolvedTask parse)).length := (List.length_map _).symm
      change page.tasks.modify heard.length _ = _
      rw [htasks, hlength, modify_concat, List.map_append]
      rfl
    · change page.recvbuffer.drop frame.bytes.length = _
      rw [hbuffer, hfront, List.drop_left, hbuffered]

theorem Reassembled.onmessage (h : Reassembled parse frames arrived page) {data : Bytes}
    (hpart : arrived ++ data <+: Framing.stream Frame.bytes frames) :
    Reassembled parse frames (arrived ++ data) (page.onmessage parse data) := by
  cases h with
  | settled heard buffered todo rest hframes harrived hcut htasks hcallback hbuffer =>
      rw [Page.onmessage_none hcallback]
      -- more frames may be complete now
      have hfront : rest ++ data <+: Framing.stream Frame.bytes todo := by
        rw [harrived, hframes, Framing.stream_append, Framing.stream_append, List.append_assoc,
          List.append_assoc] at hpart
        exact (List.prefix_append_right_inj _).mp ((List.prefix_append_right_inj _).mp hpart)
      obtain ⟨more, todo, rest', rfl, hmore, hcut'⟩ := Framing.exists_split hfront
      refine .settled heard (buffered ++ more) todo rest' ?_ ?_ hcut' htasks hcallback ?_
      · rw [hframes, List.append_assoc]
      · rw [harrived, Framing.stream_append, List.append_assoc, List.append_assoc, List.append_assoc,
          hmore]
      · change page.recvbuffer ++ data = _
        rw [hbuffer, Framing.stream_append, List.append_assoc, List.append_assoc, hmore]
  | pending heard todo rest hframes harrived hcut htasks hcallback hbuffer =>
      rw [Page.onmessage_some hcallback]
      have hfront : rest ++ data <+: Framing.stream Frame.bytes todo := by
        rw [harrived, hframes, Framing.stream_append, List.append_assoc] at hpart
        exact (List.prefix_append_right_inj _).mp hpart
      refine reassembled_callback hframes ?_ hfront htasks hcallback ?_
      · rw [harrived, List.append_assoc]
      · change page.recvbuffer ++ data = _
        rw [hbuffer]

theorem Reassembled.call (h : Reassembled parse frames arrived page)
    (hresolved : ∀ task ∈ page.tasks, task.Resolved) :
    Reassembled parse frames arrived (page.call parse) := by
  cases h with
  | pending heard todo rest _ _ _ htasks =>
      have hpending : pendingTask ∈ page.tasks := by
        rw [htasks]
        exact List.mem_append_right _ List.mem_cons_self
      exact absurd rfl (hresolved _ hpending)
  | settled heard buffered todo rest hframes harrived hcut htasks hcallback hbuffer =>
      have hlength : page.tasks.length = heard.length := by rw [htasks, List.length_map]
      have hpart : Framing.stream Frame.bytes buffered ++ rest <+:
          Framing.stream Frame.bytes (buffered ++ todo) := by
        rw [Framing.stream_append]
        exact (List.prefix_append_right_inj _).mpr hcut.prefix_stream
      have hcall : page.call parse = Page.callback parse page.tasks.length
          { Page.stopped page.tasks.length [] (.awaiting .done)
              { page with tasks := page.tasks ++ [⟨.ready DimeClient.recv, []⟩] } with
            recvcallback := some page.tasks.length } := Page.proceed_awaiting rfl
      rw [hcall, hlength]
      refine reassembled_callback hframes harrived hpart ?_ rfl hbuffer
      change (page.tasks ++ ([⟨.ready DimeClient.recv, []⟩] : List (Task Message))).modify _ _ = _
      rw [← hlength, modify_concat, htasks]
      rfl

/-! ## All events -/

/-- Whatever is sent in whichever parts, and whenever `__recv` is called. -/
theorem reassembled {client : DimeClient} {env : Env}
    (h : Page.Receiving parse client env arrived page)
    (hpart : arrived <+: Framing.stream Frame.bytes frames) :
    Reassembled parse frames arrived page := by
  induction h with
  | start => exact .settled [] [] frames [] rfl rfl (.inl rfl) rfl rfl rfl
  | onmessage before data ih =>
      exact (ih ((List.prefix_append _ _).trans hpart)).onmessage hpart
  | call before resolved ih => exact (ih hpart).call resolved

/-- Once all data are there, as many calls as there are messages have heard them. -/
theorem Reassembled.all (h : Reassembled parse frames (Framing.stream Frame.bytes frames) page)
    (hcalls : frames.length ≤ page.tasks.length) :
    (page.tasks.take frames.length).map Task.heard =
      frames.map fun frame => [frame.message parse] := by
  have hheard : ∀ heard rest : List Frame, frames = heard ++ rest → rest = [] →
      ∀ more, page.tasks = heard.map (resolvedTask parse) ++ more →
      (page.tasks.take frames.length).map Task.heard =
        frames.map fun frame => [frame.message parse] := by
    rintro heard rest rfl rfl more htasks
    rw [htasks, List.append_nil, List.take_left' (List.length_map _), List.map_map]
    rfl
  cases h with
  | settled heard buffered todo rest hframes _ _ htasks =>
      refine hheard heard (buffered ++ todo) hframes ?_ [] (htasks.trans (List.append_nil _).symm)
      rw [htasks, List.length_map, hframes, List.length_append] at hcalls
      exact List.length_eq_zero_iff.mp (by omega)
  | pending heard todo rest hframes harrived hcut htasks =>
      refine hheard heard todo hframes ?_ _ htasks
      rw [hframes, Framing.stream_append, List.append_cancel_left_eq] at harrived
      have hrest := Framing.rest_eq_nil hcut harrived.symm
      cases todo with
      | nil => rfl
      | cons frame todo =>
          rw [hrest, Framing.stream_cons] at harrived
          exact absurd (List.append_eq_nil_iff.mp harrived).1 (reads_frame parse frame).pos

/-- However the bytes of a sequence of messages are split into message events, and whenever
`__recv` is called between these, where a call is made only after the one before has been
resolved: the calls are resolved with the messages in their order, each once, and no promise
is pending while a complete message is in the buffer. Once all bytes are there, the calls
have heard all messages. -/
theorem recv_reassembles {client : DimeClient} {env : Env}
    (h : Page.Receiving parse client env arrived page)
    (hpart : arrived <+: Framing.stream Frame.bytes frames) :
    Reassembled parse frames arrived page ∧
      (arrived = Framing.stream Frame.bytes frames → frames.length ≤ page.tasks.length →
        (page.tasks.take frames.length).map Task.heard =
          frames.map fun frame => [frame.message parse]) := by
  have hreassembled := reassembled h hpart
  refine ⟨hreassembled, ?_⟩
  rintro rfl hcalls
  exact hreassembled.all hcalls

/-- `{}` with one byte of binary data. -/
def bracesFrame : Frame := ⟨[0x7B, 0x7D], [7], by decide, by decide⟩

/-- A message in two parts that `__recv` waits for. -/
theorem recv_reassembles_parts : ∃ page : Page Unit Message,
    Page.Receiving (fun _ => Json.object []) ⟨none, none, none⟩ () bracesFrame.bytes page ∧
    (page.tasks.take 1).map Task.heard = [[⟨.object [], [7]⟩]] := by
  let first : Page Unit Message :=
    (Page.start ⟨none, none, none⟩ () []).call fun _ => Json.object []
  let page : Page Unit Message :=
    (first.onmessage (fun _ => Json.object []) (bracesFrame.bytes.take 5)).onmessage
      (fun _ => Json.object []) (bracesFrame.bytes.drop 5)
  have hparts : Page.Receiving (fun _ => Json.object []) ⟨none, none, none⟩ ()
      bracesFrame.bytes page :=
    ((Page.Receiving.start.call fun _ hmem => absurd hmem List.not_mem_nil).onmessage
      (bracesFrame.bytes.take 5)).onmessage (bracesFrame.bytes.drop 5)
  have hbytes : bracesFrame.bytes = Framing.stream Frame.bytes [bracesFrame] := by decide
  have hone : 1 ≤ page.tasks.length := by decide
  exact ⟨page, hparts, (recv_reassembles hparts (hbytes ▸ List.prefix_rfl)).2 hbytes hone⟩

end Dime.JavaScript
