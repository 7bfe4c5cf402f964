import Dime.Foundation.Coroutine
import Dime.Foundation.Framing
import Dime.Clients.JavaScript.Client

/-!
# The event loop of a page

Calls on one connected `DimeClient` that are started without being awaited. Each of them
goes on when its promise has been resolved, in any order, and the data of the server
arrive in parts of any size. There is one buffer for the data that have arrived and one
place for a callback.
-/

namespace Dime.JavaScript

open Dialogue

/-- A message of the server as bytes. Its lengths fit in the header. -/
structure Frame where
  jsondata : Bytes
  bindata : Bytes
  jsondata_lt : jsondata.length < 2 ^ 32
  bindata_lt : bindata.length < 2 ^ 32

def Frame.bytes (frame : Frame) : Bytes :=
  Socket.header frame.jsondata.length frame.bindata.length ++ (frame.jsondata ++ frame.bindata)

/-- The message that is read from a frame; `parse` is `JSON.parse` of the decoded text. -/
def Frame.message (parse : Bytes → Json) (frame : Frame) : Message :=
  ⟨parse frame.jsondata, frame.bindata⟩

/-- A call can go on, or it has stopped. -/
inductive Activity (α : Type) where
  | ready (method : Method α)
  | stopped (pause : Pause DimeClient String Message Message α)

/-- A call, with the messages that its promises have been resolved with. -/
structure Task (α : Type) where
  activity : Activity α
  heard : List Message

/-- A page. What has become of the requests is recorded: those that are not answered yet,
and the answers to the others. -/
structure Page (Env α : Type) where
  client : DimeClient
  recvbuffer : Bytes
  recvcallback : Option Nat
  tasks : List (Task α)
  requests : List (Nat × Message)
  stream : Bytes
  env : Env
  served : List (Nat × List Frame)

namespace Page

variable {Env α : Type}

/-- Before the calls have been started. -/
def start (client : DimeClient) (env : Env) (calls : List (Method α)) : Page Env α where
  client := client
  recvbuffer := []
  recvcallback := none
  tasks := calls.map fun call => ⟨.ready call, []⟩
  requests := []
  stream := []
  env := env
  served := []

/-- `resolve(message)` of the promise that a call awaits. A promise is settled once. -/
def resolve (i : Nat) (message : Message) (page : Page Env α) : Page Env α :=
  { page with tasks := page.tasks.modify i fun task =>
      match task.activity with
      | .stopped (.awaiting next) => ⟨.ready (next message), task.heard ++ [message]⟩
      | _ => task }

/-- `reject(reason)` of the promise that a call awaits. -/
def reject (i : Nat) (reason : String) (page : Page Env α) : Page Env α :=
  { page with tasks := page.tasks.modify i fun task =>
      match task.activity with
      | .stopped (.awaiting _) => ⟨.ready (Prog.raise reason), task.heard⟩
      | _ => task }

/-- The function in `__recv`, for the promise that the call awaits. -/
def callback (parse : Bytes → Json) (i : Nat) (page : Page Env α) : Page Env α :=
  if 12 ≤ page.recvbuffer.length then
    let jsondataLen := BigEndian.decode ((page.recvbuffer.drop 4).take 4)
    let bindataLen := BigEndian.decode ((page.recvbuffer.drop 8).take 4)
    let page :=
      if page.recvbuffer.take 4 ≠ magic then
        { page with recvcallback := none }.reject i "Bad magic value"
      else page
    if 12 + jsondataLen + bindataLen ≤ page.recvbuffer.length then
      let jsondata := (page.recvbuffer.drop 12).take jsondataLen
      let bindata := (page.recvbuffer.drop (12 + jsondataLen)).take bindataLen
      { page with
        recvbuffer := page.recvbuffer.drop (12 + jsondataLen + bindataLen)
        recvcallback := none }.resolve i ⟨parse jsondata, bindata⟩
    else page
  else page

/-- `ws.onmessage`. -/
def onmessage (parse : Bytes → Json) (data : Bytes) (page : Page Env α) : Page Env α :=
  let page := { page with recvbuffer := page.recvbuffer ++ data }
  match page.recvcallback with
  | some i => page.callback parse i
  | none => page

/-- A call goes on up to where it awaits a promise of `__recv`, or to its end. -/
def proceed (parse : Bytes → Json) (i : Nat) (method : Method α) (page : Page Env α) : Page Env α :=
  let stop := method.proceed page.client
  let page := { page with
    client := stop.1
    requests := page.requests ++ stop.2.1.map fun request => (i, request)
    tasks := page.tasks.modify i fun task => { task with activity := .stopped stop.2.2 } }
  match stop.2.2 with
  | .awaiting _ => { page with recvcallback := some i }.callback parse i
  | _ => page

/-- The server answers the first request that has arrived. -/
def serve (answer : Env → Message → Env × List Frame) (i : Nat) (request : Message)
    (requests : List (Nat × Message)) (page : Page Env α) : Page Env α :=
  let answered := answer page.env request
  { page with
    requests := requests
    env := answered.1
    stream := page.stream ++ Framing.stream Frame.bytes answered.2
    served := page.served ++ [(i, answered.2)] }

/-- What can happen next: the server answers, a part of its data arrives, or a call that
is not waiting goes on. -/
inductive Step (answer : Env → Message → Env × List Frame) (parse : Bytes → Json) :
    Page Env α → Page Env α → Prop
  | serve {page : Page Env α} {i : Nat} {request : Message} {requests : List (Nat × Message)}
      (first : page.requests = (i, request) :: requests) :
      Step answer parse page (page.serve answer i request requests)
  | onmessage {page : Page Env α} {data stream : Bytes} (arrives : page.stream = data ++ stream)
      (nonempty : data ≠ []) :
      Step answer parse page (Page.onmessage parse data { page with stream := stream })
  | proceed {page : Page Env α} {i : Nat} {method : Method α} {heard : List Message}
      (ready : page.tasks[i]? = some ⟨.ready method, heard⟩) :
      Step answer parse page (page.proceed parse i method)

/-- All requests have been answered, and the answers have been handed out. -/
def Idle (page : Page Env α) : Prop :=
  page.requests = [] ∧ page.stream = [] ∧ page.recvbuffer = []

/-- The messages of the server's answers to the requests of a call. -/
def repliesTo (parse : Bytes → Json) (page : Page Env α) (i : Nat) : List Message :=
  page.served.flatMap fun entry => if entry.1 = i then entry.2.map (Frame.message parse) else []

end Page

end Dime.JavaScript
