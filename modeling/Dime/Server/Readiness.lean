import Mathlib.Data.Finset.Basic
import Mathlib.Order.Lattice.Nat
import Dime.Server.Evolution
import Dime.Server.Isolation

/-!
# Readiness

The two event loops with what they wait for: the descriptor sets of the `select`
loop, and the watchers of the libev loop. Whatever is in an outbuffer is waited
for to be written.
-/

namespace Dime

/-- `FD_SETSIZE`. -/
def fdSetSize : Nat := 1024

/-- What the kernel answers in one round of an event loop, for each descriptor. -/
structure Kernel where
  /-- The descriptor of a connection accepted on `i`, while `used` are in use. -/
  accept : Nat → Finset Nat → Nat
  accept_unused : ∀ i used, accept i used ∉ used
  /-- The standard streams stay open. -/
  accept_ge : ∀ i used, 3 ≤ accept i used
  /-- Whether WebSocket is enabled on a connection accepted on `i`, unless its
  handshake has failed. -/
  handshake : Nat → Option Bool
  /-- The bytes that are received from a client, or an error. -/
  recv : Nat → Except String Bytes
  /-- The number of bytes that are sent to a client, or an error. -/
  send : Nat → Except String Nat

/-- The state of the `select` loop: the sets `rfds[0]` and `wfds[0]`. -/
structure Select where
  srv : Server
  maxfd : Nat
  rfds : Finset Nat
  wfds : Finset Nat

variable (jansson : Jansson Json)

namespace Server

/-- The descriptors in use: those listened on and those of clients. -/
def used (srv : Server) (fds : List Nat) : Finset Nat :=
  (fds ++ srv.fd2clnt.iterate.map Entry.key).toFinset

end Server

namespace Select

/-- The beginning of `dime_server_loop`. -/
def start (fds : List Nat) (srv : Server) : Select :=
  { srv
    maxfd := fds.foldl (fun maxfd fd => max maxfd (fd + 1)) 0
    rfds := fds.toFinset
    wfds := ∅ }

/-- A client that is gone. -/
def drop (st : Select) (fd : Nat) : Select :=
  { st with rfds := st.rfds.erase fd, wfds := st.wfds.erase fd }

/-- A connection on the descriptor `i`, with the allocations and the insertion
succeeding. -/
def acceptOn (kernel : Kernel) (fds : List Nat) (i : Nat) (st : Select) :
    Except Fault (Verdict × Select) := do
  match kernel.handshake i with
  | none => return (.stays, st)
  | some ws =>
      let fd := kernel.accept i (st.srv.used fds)
      match ← st.srv.accept (fun _ => true) fd ws with
      | none => return (.returns, st)
      | some srv =>
          return (.stays,
            { st with srv, rfds := insert fd st.rfds, maxfd := max st.maxfd (fd + 1) })

/-- The reading of a client: the verdict, and whether the client is still there. -/
def readFrom (kernel : Kernel) (errno : String) (fuel : Nat) (i : Nat) (c : ClientPtr)
    (st : Select) : Except Fault (Verdict × Bool × Select) := do
  let clnt ← deref st.srv.clnts c
  let (n, sock) := clnt.sock.recvpartial true true (kernel.recv i)
  let srv := st.srv.setClient c { clnt with sock }
  if n ≤ 0 then
    let srv ← srv.close c
    return (.stays, false, drop { st with srv } clnt.fd)
  else
    let (verdict, srv) ← srv.popLoop jansson .select errno fuel false c
    return (verdict, true, { st with srv })

/-- The writing to a client. -/
def writeTo (kernel : Kernel) (i : Nat) (c : ClientPtr) (st : Select) :
    Except Fault Select := do
  let clnt ← deref st.srv.clnts c
  let (n, _, sock) := clnt.sock.sendpartial true (kernel.send i)
  let srv := st.srv.setClient c { clnt with sock }
  if n < 0 then
    let srv ← srv.close c
    return drop { st with srv } clnt.fd
  else return { st with srv }

/-- The search for the client of a descriptor. -/
def find (i : Nat) (st : Select) : Except Fault (Option ClientPtr × Select) := do
  let (found, fd2clnt) ← ended (st.srv.fd2clnt.search i)
  return (found, { st with srv := { st.srv with fd2clnt } })

/-- The second half of a round of the scan; `clnt` is a client found before. -/
def writePhase (kernel : Kernel) (wready : Finset Nat) (i : Nat) (clnt : Option ClientPtr)
    (st : Select) : Except Fault Select := do
  if i ∈ wready then
    match clnt with
    | some c => st.writeTo kernel i c
    | none =>
        let (found, st) ← st.find i
        match found with
        | some c => st.writeTo kernel i c
        | none => return st
  else return st

/-- What the scan does about the descriptor `i`. -/
def scanFd (kernel : Kernel) (errno : String) (fuel : Nat) (fds : List Nat)
    (rready wready : Finset Nat) (i : Nat) (st : Select) : Except Fault (Verdict × Select) := do
  if i ∈ rready then
    let (found, st) ← st.find i
    match found with
    | none =>
        if i ∈ fds then
          let (verdict, st) ← st.acceptOn kernel fds i
          match verdict with
          | .returns => return (.returns, st)
          | .stays =>
              if kernel.handshake i = none then return (.stays, st)
              else
                let st ← st.writePhase kernel wready i none
                return (.stays, st)
        else return (.stays, st)
    | some c =>
        let (verdict, there, st) ← st.readFrom jansson kernel errno fuel i c
        match verdict, there with
        | .returns, _ => return (.returns, st)
        | .stays, false => return (.stays, st)
        | .stays, true =>
            let st ← st.writePhase kernel wready i (some c)
            return (.stays, st)
  else
    let st ← st.writePhase kernel wready i none
    return (.stays, st)

/-- The scan from the descriptor `i` on. `maxfd` may grow on the way. -/
def scan (kernel : Kernel) (errno : String) (fuel : Nat) (fds : List Nat)
    (rready wready : Finset Nat) : Nat → Nat → Select → Except Fault (Verdict × Select)
  | 0, _, st => return (.stays, st)
  | n + 1, i, st => do
      if i < st.maxfd then
        let (verdict, st) ← scanFd jansson kernel errno fuel fds rready wready i st
        match verdict with
        | .returns => return (.returns, st)
        | .stays => scan kernel errno fuel fds rready wready n (i + 1) st
      else return (.stays, st)

/-- The loop that decides for the descriptors from `i` on whether to wait for writing. -/
def refresh : Nat → Nat → Select → Except Fault Select
  | 0, _, st => return st
  | n + 1, i, st => do
      if i < st.maxfd then
        if i ∈ st.rfds then
          let (found, st) ← st.find i
          match found with
          | none => refresh n (i + 1) st
          | some c =>
              let clnt ← deref st.srv.clnts c
              if clnt.sock.wbuf.len > 0 then
                refresh n (i + 1) { st with wfds := insert i st.wfds }
              else refresh n (i + 1) { st with wfds := st.wfds.erase i }
        else refresh n (i + 1) st
      else return st

/-- What follows a call of `select` that reports `rready` and `wready`, up to the
next call. -/
def round (kernel : Kernel) (errno : String) (fuel : Nat) (fds : List Nat)
    (rready wready : Finset Nat) (st : Select) : Except Fault (Verdict × Select) := do
  let (verdict, st) ← st.scan jansson kernel errno fuel fds rready wready fdSetSize 3
  match verdict with
  | .returns => return (.returns, st)
  | .stays =>
      let st ← st.refresh fdSetSize 3
      return (.stays, st)

/-- The states in which the loop calls `select`, as long as descriptors stay below
`FD_SETSIZE`. -/
inductive Calls (fds : List Nat) : Select → Prop where
  | start {srv : Server} (init : Server.init (fun _ => true) = some srv)
      (small : (start fds srv).maxfd ≤ fdSetSize) : Calls fds (start fds srv)
  | round {st st' : Select} (before : Calls fds st) (kernel : Kernel) (errno : String) (fuel : Nat)
      {rready wready : Finset Nat} (readable : rready ⊆ st.rfds) (writable : wready ⊆ st.wfds)
      (step : st.round jansson kernel errno fuel fds rready wready = .ok (.stays, st'))
      (small : st'.maxfd ≤ fdSetSize) : Calls fds st'

end Select

/-! ## Descriptors of clients -/

namespace Server

variable {jansson} {srv srv' : Server} {c : ClientPtr} {clnt : Client} {slack : MsgPtr → Nat}

/-- `fd` is the descriptor of a client. -/
def Serving (srv : Server) (fd : Nat) : Prop :=
  ∃ c clnt, srv.clnts.cells c = some clnt ∧ clnt.fd = fd

/-- `fd` is the descriptor of a client with something in its outbuffer. -/
def Pending (srv : Server) (fd : Nat) : Prop :=
  ∃ c clnt, srv.clnts.cells c = some clnt ∧ clnt.fd = fd ∧ 0 < clnt.sock.wbuf.len

theorem serving_iff_lookup (h : srv.Inv slack none) {fd : Nat} :
    srv.Serving fd ↔ ∃ c, srv.fd2clnt.lookup fd = some c :=
  exists_congr fun c => (h.registry.fd_lookup fd c).symm

/-- The descriptors of clients are the keys of `fd2clnt`. -/
theorem serving_iff_key (h : srv.Inv slack none) {fd : Nat} :
    srv.Serving fd ↔ fd ∈ srv.fd2clnt.iterate.map Entry.key := by
  rw [serving_iff_lookup h, List.mem_map]
  constructor
  · intro hlookup
    obtain ⟨c, hlookup⟩ := hlookup
    obtain ⟨entry, hentry, hkey, _⟩ :=
      (Table.lookup_eq_some_iff h.registry.fd_wf.toCore).mp hlookup
    exact ⟨entry, Table.mem_iterate.mpr hentry, hkey⟩
  · intro hkey
    obtain ⟨entry, hentry, hkey⟩ := hkey
    exact ⟨entry.val, (Table.lookup_eq_some_iff h.registry.fd_wf.toCore).mpr
      ⟨entry, Table.mem_iterate.mp hentry, hkey, rfl⟩⟩

theorem serving_iff_peer {fd : Nat} :
    srv.Serving fd ↔ ∃ c peer, srv.view.peers c = some peer ∧ peer.fd = fd := by
  constructor
  · intro hserving
    obtain ⟨c, clnt, hc, hfd⟩ := hserving
    exact ⟨c, clnt.view srv.content, by rw [view_peers, hc, Option.map_some], hfd⟩
  · intro hserving
    obtain ⟨c, peer, hpeer, hfd⟩ := hserving
    obtain ⟨clnt, hc, rfl⟩ := Option.map_eq_some_iff.mp hpeer
    exact ⟨c, clnt, hc, hfd⟩

theorem Evolves.serving (h : Evolves jansson slack srv srv') (fd : Nat) :
    srv'.Serving fd ↔ srv.Serving fd := by
  rw [serving_iff_peer, serving_iff_peer]
  constructor
  · intro hserving
    obtain ⟨c, peer', hpeer', hfd⟩ := hserving
    obtain ⟨peer, hpeer, hevolves⟩ := h.clients.peer hpeer'
    exact ⟨c, peer, hpeer, hevolves.fd.symm.trans hfd⟩
  · intro hserving
    obtain ⟨c, peer, hpeer, hfd⟩ := hserving
    obtain ⟨peer', hpeer', hevolves⟩ := h.clients.peer' hpeer
    exact ⟨c, peer', hpeer', hevolves.fd.trans hfd⟩

/-- Traffic on the socket of a client. -/
theorem serving_setClient (hc : srv.clnts.cells c = some clnt) (sock : Socket) (fd : Nat) :
    (srv.setClient c { clnt with sock }).Serving fd ↔ srv.Serving fd := by
  constructor
  · intro hserving
    obtain ⟨c', clnt', hc', hfd⟩ := hserving
    obtain rfl | hne := eq_or_ne c' c
    · rw [setClient_self hc] at hc'
      cases hc'
      exact ⟨c', clnt, hc, hfd⟩
    · rw [setClient_of_ne _ hne] at hc'
      exact ⟨c', clnt', hc', hfd⟩
  · intro hserving
    obtain ⟨c', clnt', hc', hfd⟩ := hserving
    obtain rfl | hne := eq_or_ne c' c
    · cases hc.symm.trans hc'
      exact ⟨c', { clnt with sock }, setClient_self hc, hfd⟩
    · exact ⟨c', clnt', (setClient_of_ne _ hne).trans hc', hfd⟩

theorem inv_setClient (h : srv.Inv slack none) (hc : srv.clnts.cells c = some clnt)
    (sock : Socket) : (srv.setClient c { clnt with sock }).Inv slack none := by
  have hframe := framed_setClient { clnt with sock } hc rfl rfl
  exact ⟨h.registry.framed hframe, h.membership.framed hframe, h.refs.setClient hc rfl,
    h.quiet.setClient (h.quiet c clnt hc)⟩

/-- A new client has the descriptor of its connection, and an empty outbuffer. -/
theorem serving_accept {fd : Nat} {ws : Bool} (hview : srv'.view = srv.view.accept fd ws)
    (fd' : Nat) : srv'.Serving fd' ↔ fd' = fd ∨ srv.Serving fd' := by
  have hfresh : srv.view.peers srv.clnts.next = none := by
    rw [view_peers, srv.clnts.fresh _ le_rfl, Option.map_none]
  have hpeers : srv'.view.peers = Function.update srv.view.peers srv.clnts.next (some
      { fd, waiting := false, queue := [], sent := [], wbuf := [], rbuf := [],
        ws := if ws then some [] else none, ev := none }) := congrArg Hub.peers hview
  rw [serving_iff_peer, serving_iff_peer, hpeers]
  constructor
  · intro hserving
    obtain ⟨c, peer, hpeer, hfd⟩ := hserving
    obtain rfl | hne := eq_or_ne c srv.clnts.next
    · rw [Function.update_self] at hpeer
      cases hpeer
      exact .inl hfd.symm
    · rw [Function.update_of_ne hne] at hpeer
      exact .inr ⟨c, peer, hpeer, hfd⟩
  · intro hserving
    obtain rfl | hserving := hserving
    · exact ⟨_, _, Function.update_self .., rfl⟩
    · obtain ⟨c, peer, hpeer, hfd⟩ := hserving
      refine ⟨c, peer, ?_, hfd⟩
      rw [Function.update_of_ne ?_, hpeer]
      rintro rfl
      rw [hfresh] at hpeer
      cases hpeer

/-- The descriptor of a client that is gone is no longer one. -/
theorem serving_close (h : srv.Inv slack none) (hc : srv.clnts.cells c = some clnt)
    (hview : srv'.view = srv.view.close c) (fd : Nat) :
    srv'.Serving fd ↔ srv.Serving fd ∧ fd ≠ clnt.fd := by
  have hpeers : srv'.view.peers = Function.update srv.view.peers c none :=
    congrArg Hub.peers hview
  rw [serving_iff_peer, hpeers]
  constructor
  · intro hserving
    obtain ⟨c', peer, hpeer, hfd⟩ := hserving
    obtain rfl | hne := eq_or_ne c' c
    · rw [Function.update_self] at hpeer
      cases hpeer
    · rw [Function.update_of_ne hne] at hpeer
      obtain ⟨clnt', hc', rfl⟩ := Option.map_eq_some_iff.mp hpeer
      refine ⟨⟨c', clnt', hc', hfd⟩, ?_⟩
      intro hsame
      -- a descriptor belongs to one client
      have hlookup := (h.registry.fd_lookup fd c').mpr ⟨clnt', hc', hfd⟩
      have hlookup' := (h.registry.fd_lookup fd c).mpr ⟨clnt, hc, hsame.symm⟩
      exact hne (Option.some.inj (hlookup.symm.trans hlookup'))
  · intro hserving
    obtain ⟨⟨c', clnt', hc', hfd⟩, hne⟩ := hserving
    refine ⟨c', clnt'.view srv.content, ?_, hfd⟩
    rw [Function.update_of_ne, view_peers, hc', Option.map_some]
    rintro rfl
    cases hc.symm.trans hc'
    exact hne hfd.symm

end Server

/-! ## The descriptor sets -/

namespace Select

open Server

variable {jansson} {kernel : Kernel} {errno : String} {fuel : Nat} {fds : List Nat}
  {rready wready : Finset Nat} {st st' : Select} {i : Nat} {c : ClientPtr}

/-- What holds all through the loop: `rfds` is exact, and `wfds` only has clients,
whose descriptors are all in reach of the scans. -/
structure Inv (fds : List Nat) (st : Select) : Prop where
  srv : ∃ slack, st.srv.Inv slack none
  rfds : ∀ fd, fd ∈ st.rfds ↔ fd ∈ fds ∨ st.srv.Serving fd
  wfds : ∀ fd ∈ st.wfds, st.srv.Serving fd
  range : ∀ fd, st.srv.Serving fd → 3 ≤ fd ∧ fd < st.maxfd
  apart : ∀ fd, st.srv.Serving fd → fd ∉ fds

/-- The clients have the same descriptors as before. -/
theorem Inv.congr (h : Inv fds st) {srv : Server} (hsrv : ∃ slack, srv.Inv slack none)
    (hserving : ∀ fd, srv.Serving fd ↔ st.srv.Serving fd) : Inv fds { st with srv } := by
  refine ⟨hsrv, ?_, ?_, ?_, ?_⟩
  · intro fd
    rw [hserving]
    exact h.rfds fd
  · exact fun fd hfd => (hserving fd).mpr (h.wfds fd hfd)
  · exact fun fd hfd => h.range fd ((hserving fd).mp hfd)
  · exact fun fd hfd => h.apart fd ((hserving fd).mp hfd)

theorem Inv.drop (h : Inv fds st) {clnt : Client} (hc : st.srv.clnts.cells c = some clnt)
    {srv : Server} (hrun : st.srv.close c = .ok srv) :
    Inv fds (drop { st with srv } clnt.fd) := by
  obtain ⟨slack, hinv⟩ := h.srv
  obtain ⟨srv', hrun', hinv', hview⟩ := close_succeed hinv hc
  rw [hrun] at hrun'
  cases hrun'
  have hclose := serving_close hinv hc hview
  have hself : st.srv.Serving clnt.fd := ⟨c, clnt, hc, rfl⟩
  refine ⟨⟨_, hinv'⟩, ?_, ?_, ?_, ?_⟩
  · intro fd
    rw [Select.drop, Finset.mem_erase, h.rfds, hclose]
    constructor
    · rintro ⟨hne, hlistening | hserving⟩
      · exact .inl hlistening
      · exact .inr ⟨hserving, hne⟩
    · rintro (hlistening | ⟨hserving, hne⟩)
      · refine ⟨?_, .inl hlistening⟩
        rintro rfl
        exact h.apart _ hself hlistening
      · exact ⟨hne, .inr hserving⟩
  · intro fd hfd
    rw [Select.drop, Finset.mem_erase] at hfd
    exact (hclose fd).mpr ⟨h.wfds fd hfd.2, hfd.1⟩
  · exact fun fd hfd => h.range fd ((hclose fd).mp hfd).1
  · exact fun fd hfd => h.apart fd ((hclose fd).mp hfd).1

theorem find_spec (h : Inv fds st) {found : Option ClientPtr}
    (hrun : st.find i = .ok (found, st')) :
    Inv fds st' ∧ st'.maxfd = st.maxfd ∧ st'.rfds = st.rfds ∧ st'.wfds = st.wfds ∧
      st'.srv.clnts = st.srv.clnts ∧
      ∀ c, found = some c ↔ ∃ clnt, st.srv.clnts.cells c = some clnt ∧ clnt.fd = i := by
  obtain ⟨slack, hinv⟩ := h.srv
  obtain ⟨fd2clnt, hsearch, hinv'⟩ := search_succeed hinv i
  rw [find, hsearch] at hrun
  cases hrun
  exact ⟨h.congr ⟨_, hinv'⟩ fun _ => Iff.rfl, rfl, rfl, rfl, rfl,
    fun c => hinv.registry.fd_lookup i c⟩

theorem inv_writeTo (h : Inv fds st) (hrun : st.writeTo kernel i c = .ok st') :
    Inv fds st' ∧ st'.maxfd = st.maxfd := by
  obtain ⟨slack, hinv⟩ := h.srv
  rw [writeTo] at hrun
  obtain ⟨clnt, hc, hrun⟩ := bind_eq_ok hrun
  have hc' := deref_eq_ok hc
  dsimp only at hrun
  have hinv' := inv_setClient hinv hc' (clnt.sock.sendpartial true (kernel.send i)).2.2
  have hsent := h.congr ⟨slack, hinv'⟩ (serving_setClient hc' _)
  split at hrun
  · obtain ⟨srv, hclose, hrun⟩ := bind_eq_ok hrun
    cases hrun
    exact ⟨hsent.drop (setClient_self hc') hclose, rfl⟩
  · cases hrun
    exact ⟨hsent, rfl⟩

theorem inv_writePhase (h : Inv fds st) {clnt : Option ClientPtr}
    (hrun : st.writePhase kernel wready i clnt = .ok st') :
    Inv fds st' ∧ st'.maxfd = st.maxfd := by
  unfold writePhase at hrun
  split at hrun
  · split at hrun
    · exact inv_writeTo h hrun
    · obtain ⟨⟨found, mid⟩, hfind, hrun⟩ := bind_eq_ok hrun
      obtain ⟨hmid, hmaxfd, _⟩ := find_spec h hfind
      dsimp only at hrun
      split at hrun
      · obtain ⟨hinv, hmax⟩ := inv_writeTo hmid hrun
        exact ⟨hinv, hmax.trans hmaxfd⟩
      · cases hrun
        exact ⟨hmid, hmaxfd⟩
  · cases hrun
    exact ⟨h, rfl⟩

theorem inv_readFrom (h : Inv fds st) {verdict : Verdict} {there : Bool}
    (hrun : st.readFrom jansson kernel errno fuel i c = .ok (verdict, there, st')) :
    Inv fds st' ∧ st'.maxfd = st.maxfd := by
  obtain ⟨slack, hinv⟩ := h.srv
  rw [readFrom] at hrun
  obtain ⟨clnt, hc, hrun⟩ := bind_eq_ok hrun
  have hc' := deref_eq_ok hc
  dsimp only at hrun
  have hinv' := inv_setClient hinv hc' (clnt.sock.recvpartial true true (kernel.recv i)).2
  have hreceived := h.congr ⟨slack, hinv'⟩ (serving_setClient hc' _)
  split at hrun
  · obtain ⟨srv, hclose, hrun⟩ := bind_eq_ok hrun
    cases hrun
    exact ⟨hreceived.drop (setClient_self hc') hclose, rfl⟩
  · obtain ⟨⟨verdict', srv⟩, hpop, hrun⟩ := bind_eq_ok hrun
    cases hrun
    have hevolves := evolves_popLoop hinv' hpop
    exact ⟨hreceived.congr ⟨slack, hevolves.inv⟩ hevolves.serving, rfl⟩

theorem inv_acceptOn (h : Inv fds st) {verdict : Verdict}
    (hrun : st.acceptOn kernel fds i = .ok (verdict, st')) :
    Inv fds st' ∧ st.maxfd ≤ st'.maxfd := by
  obtain ⟨slack, hinv⟩ := h.srv
  rw [acceptOn] at hrun
  split at hrun
  · cases hrun
    exact ⟨h, le_rfl⟩
  · next ws _ =>
      generalize hfd : kernel.accept i (st.srv.used fds) = fd at hrun
      have hunused : fd ∉ st.srv.used fds := hfd ▸ kernel.accept_unused i _
      rw [used, List.mem_toFinset, List.mem_append, not_or, ← serving_iff_key hinv] at hunused
      have hlookup : st.srv.fd2clnt.lookup fd = none := by
        rw [Option.eq_none_iff_forall_ne_some]
        exact fun c hc => hunused.2 ((serving_iff_lookup hinv).mpr ⟨c, hc⟩)
      obtain ⟨srv, haccept, hinv', hview⟩ := accept_succeed hinv fd ws hlookup
      have hserving := serving_accept hview
      dsimp only at hrun
      rw [haccept] at hrun
      cases hrun
      refine ⟨⟨⟨slack, hinv'⟩, ?_, ?_, ?_, ?_⟩, le_max_left _ _⟩
      · intro fd'
        rw [Finset.mem_insert, h.rfds, hserving]
        exact or_left_comm
      · exact fun fd' hfd' => (hserving fd').mpr (.inr (h.wfds fd' hfd'))
      · intro fd' hfd'
        obtain rfl | hold := (hserving fd').mp hfd'
        · exact ⟨hfd ▸ kernel.accept_ge i _, lt_max_of_lt_right (Nat.lt_succ_self _)⟩
        · obtain ⟨hlow, hhigh⟩ := h.range fd' hold
          exact ⟨hlow, lt_max_of_lt_left hhigh⟩
      · intro fd' hfd'
        obtain rfl | hold := (hserving fd').mp hfd'
        · exact hunused.1
        · exact h.apart fd' hold

theorem inv_scanFd (h : Inv fds st) {verdict : Verdict}
    (hrun : st.scanFd jansson kernel errno fuel fds rready wready i = .ok (verdict, st')) :
    Inv fds st' := by
  unfold scanFd at hrun
  split at hrun
  · obtain ⟨⟨found, mid⟩, hfind, hrun⟩ := bind_eq_ok hrun
    obtain ⟨hmid, _⟩ := find_spec h hfind
    dsimp only at hrun
    split at hrun
    · split at hrun
      · obtain ⟨⟨verdict', opened⟩, haccept, hrun⟩ := bind_eq_ok hrun
        obtain ⟨hopened, _⟩ := inv_acceptOn hmid haccept
        dsimp only at hrun
        split at hrun
        · cases hrun
          exact hopened
        · split at hrun
          · cases hrun
            exact hopened
          · obtain ⟨written, hwrite, hrun⟩ := bind_eq_ok hrun
            cases hrun
            exact (inv_writePhase hopened hwrite).1
      · cases hrun
        exact hmid
    · obtain ⟨⟨verdict', there, read⟩, hread, hrun⟩ := bind_eq_ok hrun
      obtain ⟨hread', _⟩ := inv_readFrom hmid hread
      dsimp only at hrun
      split at hrun
      · cases hrun
        exact hread'
      · cases hrun
        exact hread'
      · obtain ⟨written, hwrite, hrun⟩ := bind_eq_ok hrun
        cases hrun
        exact (inv_writePhase hread' hwrite).1
  · obtain ⟨written, hwrite, hrun⟩ := bind_eq_ok hrun
    cases hrun
    exact (inv_writePhase h hwrite).1

theorem inv_scan {n : Nat} (h : Inv fds st) {verdict : Verdict}
    (hrun : st.scan jansson kernel errno fuel fds rready wready n i = .ok (verdict, st')) :
    Inv fds st' := by
  induction n generalizing i st with
  | zero =>
      cases hrun
      exact h
  | succ n ih =>
      unfold scan at hrun
      split at hrun
      · obtain ⟨⟨verdict', mid⟩, hscan, hrun⟩ := bind_eq_ok hrun
        have hmid := inv_scanFd h hscan
        dsimp only at hrun
        split at hrun
        · cases hrun
          exact hmid
        · exact ih hmid hrun
      · cases hrun
        exact h

/-- For the descriptors below `i` it is settled whether to wait for writing. -/
def Settled (i : Nat) (st : Select) : Prop := ∀ fd < i, fd ∈ st.wfds ↔ st.srv.Pending fd

theorem Settled.succ (hsettled : Settled i st) (hi : i ∈ st.wfds ↔ st.srv.Pending i) :
    Settled (i + 1) st := by
  intro fd hfd
  obtain hlt | rfl := Nat.lt_succ_iff_lt_or_eq.mp hfd
  · exact hsettled fd hlt
  · exact hi

theorem serving_of_pending {srv : Server} {fd : Nat} (h : srv.Pending fd) : srv.Serving fd := by
  obtain ⟨c, clnt, hc, hfd, _⟩ := h
  exact ⟨c, clnt, hc, hfd⟩

/-- There is nothing to write to a descriptor that is not a client's. -/
theorem Inv.idle (h : Inv fds st) {fd : Nat} (hnot : ¬ st.srv.Serving fd) :
    fd ∈ st.wfds ↔ st.srv.Pending fd := by
  constructor
  · exact fun hmem => absurd (h.wfds fd hmem) hnot
  · exact fun hpending => absurd (serving_of_pending hpending) hnot

theorem Settled.all (hsettled : Settled i st) (h : Inv fds st) (hi : st.maxfd ≤ i) (fd : Nat) :
    fd ∈ st.wfds ↔ st.srv.Pending fd := by
  obtain hlt | hge := Nat.lt_or_ge fd i
  · exact hsettled fd hlt
  · apply h.idle
    intro hserving
    have := (h.range fd hserving).2
    omega

/-- What is decided for one client does not concern the others. -/
theorem Settled.decide (hsettled : Settled i st) {wfds : Finset Nat}
    (hothers : ∀ fd, fd ≠ i → (fd ∈ wfds ↔ fd ∈ st.wfds)) (hi : i ∈ wfds ↔ st.srv.Pending i) :
    Settled (i + 1) { st with wfds } := by
  apply Settled.succ
  · intro fd hfd
    exact (hothers fd (Nat.ne_of_lt hfd)).trans (hsettled fd hfd)
  · exact hi

theorem refresh_maxfd {n : Nat} (hrun : st.refresh n i = .ok st') : st'.maxfd = st.maxfd := by
  induction n generalizing i st with
  | zero =>
      cases hrun
      rfl
  | succ n ih =>
      unfold refresh at hrun
      split at hrun
      · split at hrun
        · obtain ⟨⟨found, mid⟩, hfind, hrun⟩ := bind_eq_ok hrun
          have hmid : mid.maxfd = st.maxfd := by
            obtain ⟨⟨found', fd2clnt⟩, _, hfind⟩ := bind_eq_ok hfind
            cases hfind
            rfl
          dsimp only at hrun
          split at hrun
          · exact (ih hrun).trans hmid
          · obtain ⟨clnt, _, hrun⟩ := bind_eq_ok hrun
            split at hrun
            · exact (ih hrun).trans hmid
            · exact (ih hrun).trans hmid
        · exact ih hrun
      · cases hrun
        rfl

/-- The last loop of a round settles what to wait for. The induction is on the
descriptors that are left. -/
theorem refresh_spec {n : Nat} (h : Inv fds st) (hsettled : Settled i st)
    (hreach : st.maxfd ≤ i + n) (hrun : st.refresh n i = .ok st') :
    Inv fds st' ∧ ∀ fd, fd ∈ st'.wfds ↔ st'.srv.Pending fd := by
  induction n generalizing i st with
  | zero =>
      cases hrun
      exact ⟨h, hsettled.all h hreach⟩
  | succ n ih =>
      have hnext : st.maxfd ≤ i + 1 + n := by omega
      unfold refresh at hrun
      split at hrun
      · split at hrun
        · obtain ⟨⟨found, mid⟩, hfind, hrun⟩ := bind_eq_ok hrun
          obtain ⟨hmid, hmaxfd, hrfds, hwfds, hclnts, hfound⟩ := find_spec h hfind
          have hpending : ∀ fd, mid.srv.Pending fd ↔ st.srv.Pending fd := by
            intro fd
            rw [Pending, Pending, hclnts]
          have hsettled' : Settled i mid := by
            intro fd hfd
            rw [hwfds, hpending]
            exact hsettled fd hfd
          rw [← hmaxfd] at hnext
          dsimp only at hrun
          split at hrun
          · refine ih hmid (hsettled'.succ (hmid.idle ?_)) hnext hrun
            intro hserving
            obtain ⟨c, clnt, hc, hfd⟩ := hserving
            rw [hclnts] at hc
            cases (hfound c).mpr ⟨clnt, hc, hfd⟩
          · next c =>
              obtain ⟨clnt, hc, hrun⟩ := bind_eq_ok hrun
              have hcell := deref_eq_ok hc
              -- no other client has the descriptor
              have hone : mid.srv.Pending i ↔ 0 < clnt.sock.wbuf.len := by
                rw [hclnts] at hcell
                obtain ⟨clnt', hcell', hfd⟩ := (hfound c).mp rfl
                cases hcell.symm.trans hcell'
                rw [hpending]
                constructor
                · intro hpend
                  obtain ⟨c', clnt', hc', hfd', hlen⟩ := hpend
                  cases (hfound c').mpr ⟨clnt', hc', hfd'⟩
                  cases hcell.symm.trans hc'
                  exact hlen
                · exact fun hlen => ⟨c, clnt, hcell, hfd, hlen⟩
              split at hrun
              · next hlen =>
                  have hpend := hone.mpr hlen
                  have hinsert : Inv fds { mid with wfds := insert i mid.wfds } := by
                    refine ⟨hmid.srv, hmid.rfds, ?_, hmid.range, hmid.apart⟩
                    intro fd hfd
                    obtain rfl | hfd := Finset.mem_insert.mp hfd
                    · exact serving_of_pending hpend
                    · exact hmid.wfds fd hfd
                  refine ih hinsert (hsettled'.decide ?_ ?_) hnext hrun
                  · exact fun fd hne => Finset.mem_insert.trans (or_iff_right hne)
                  · exact iff_of_true (Finset.mem_insert_self i _) hpend
              · next hlen =>
                  have herase : Inv fds { mid with wfds := mid.wfds.erase i } :=
                    ⟨hmid.srv, hmid.rfds, fun fd hfd => hmid.wfds fd (Finset.mem_of_mem_erase hfd),
                      hmid.range, hmid.apart⟩
                  refine ih herase (hsettled'.decide ?_ ?_) hnext hrun
                  · exact fun fd hne => Finset.mem_erase.trans (and_iff_right hne)
                  · exact iff_of_false (Finset.notMem_erase i _) fun hpend => hlen (hone.mp hpend)
        · next hnot =>
            refine ih h (hsettled.succ (h.idle ?_)) hnext hrun
            exact fun hserving => hnot ((h.rfds i).mpr (.inr hserving))
      · next hnot =>
          cases hrun
          exact ⟨h, hsettled.all h (Nat.le_of_not_lt hnot)⟩

theorem inv_start {srv : Server} (hinit : Server.init (fun _ => true) = some srv) :
    Inv fds (start fds srv) := by
  have hinv := init_inv hinit
  have hnone : ∀ fd, ¬ srv.Serving fd := by
    intro fd hserving
    obtain ⟨c, clnt, hc, _⟩ := hserving
    cases hinit
    cases hc
  refine ⟨⟨_, hinv⟩, ?_, ?_, ?_, ?_⟩
  · intro fd
    rw [start, List.mem_toFinset]
    exact (or_iff_left (hnone fd)).symm
  · exact fun fd hfd => absurd hfd (Finset.notMem_empty fd)
  · exact fun fd hfd => absurd hfd (hnone fd)
  · exact fun fd hfd => absurd hfd (hnone fd)

/-- The two sets, whenever the loop calls `select`. -/
theorem Calls.exact (h : Calls jansson fds st) :
    Inv fds st ∧ ∀ fd, fd ∈ st.wfds ↔ st.srv.Pending fd := by
  induction h with
  | @start srv hinit _ =>
      have hinv : Inv fds (Select.start fds srv) := inv_start hinit
      refine ⟨hinv, fun fd => hinv.idle ?_⟩
      intro hserving
      obtain ⟨c, clnt, hc, _⟩ := hserving
      cases hinit
      cases hc
  | @round st st' before kernel errno fuel rready wready _ _ step small ih =>
      unfold Select.round at step
      obtain ⟨⟨verdict, mid⟩, hscan, step⟩ := bind_eq_ok step
      have hmid := inv_scan ih.1 hscan
      dsimp only at step
      split at step
      · cases step
      · obtain ⟨fresh, hrefresh, step⟩ := bind_eq_ok step
        cases step
        apply refresh_spec hmid _ _ hrefresh
        · -- no descriptor of a client is below 3
          intro fd hfd
          apply hmid.idle
          intro hserving
          have := (hmid.range fd hserving).1
          omega
        · have := refresh_maxfd hrefresh
          omega

end Select

/-! ## The watchers -/

namespace Server

/-- `ev_server_readable`: a connection on the descriptor `fd`, with the allocations
and the insertion succeeding. `handshake` is as for the `select` loop. -/
def evServerReadable (fd : Nat) (handshake : Option Bool) (srv : Server) :
    Except Fault Server := do
  match handshake with
  | none => return srv
  | some ws =>
      let c := srv.clnts.next
      match ← srv.accept (fun _ => true) fd ws with
      | none => return srv
      | some srv =>
          let clnt ← deref srv.clnts c
          return srv.setClient c
            { clnt with sock := { clnt.sock with ev := some ⟨true, false⟩ } }

/-- `ev_client_readable`. `both` is whether the event is one of reading and of writing,
which is how libev reports an error. -/
def evClientReadable (errno : String) (fuel : Nat) (c : ClientPtr) (both : Bool)
    (chunk : Except String Bytes) (srv : Server) : Except Fault Server := do
  if both then srv.close c
  else
    let (_, srv) ← srv.readable jansson .libev errno fuel c chunk
    return srv

/-- `ev_client_writable`. -/
def evClientWritable (c : ClientPtr) (both : Bool) (accepted : Except String Nat)
    (srv : Server) : Except Fault Server := do
  if both then srv.close c
  else
    let clnt ← deref srv.clnts c
    let (n, _, sock) := clnt.sock.sendpartial true accepted
    let srv := srv.setClient c { clnt with sock }
    if n < 0 then srv.close c
    else if sock.wbuf.len = 0 then
      return srv.setClient c
        { clnt with sock := { sock with ev := sock.ev.map Watchers.stopWrite } }
    else return srv

/-- The states that the callbacks of the libev loop leave. -/
inductive Callbacks : Server → Prop where
  | start {srv : Server} (init : Server.init (fun _ => true) = some srv) : Callbacks srv
  | serverReadable {srv srv' : Server} (before : Callbacks srv) {fd : Nat}
      {handshake : Option Bool} (unused : fd ∉ srv.fd2clnt.iterate.map Entry.key)
      (step : srv.evServerReadable fd handshake = .ok srv') : Callbacks srv'
  | clientReadable {srv srv' : Server} (before : Callbacks srv) {errno : String} {fuel : Nat}
      {c : ClientPtr} {both : Bool} {chunk : Except String Bytes}
      (registered : c ∈ srv.registered)
      (step : srv.evClientReadable jansson errno fuel c both chunk = .ok srv') : Callbacks srv'
  | clientWritable {srv srv' : Server} (before : Callbacks srv) {c : ClientPtr} {both : Bool}
      {accepted : Except String Nat} (registered : c ∈ srv.registered)
      (step : srv.evClientWritable c both accepted = .ok srv') : Callbacks srv'

end Server

/-- The watchers of a client are as they should be: the one for reading is active, and
the one for writing if there is something to write. -/
def Peer.Watched (peer : Peer) : Prop :=
  ∃ watchers, peer.ev = some watchers ∧ watchers.rwatcher = true ∧
    (peer.wbuf ≠ [] → watchers.wwatcher = true)

variable {jansson}

theorem Peer.Evolves.watched {peer peer' : Peer} (h : peer.Evolves jansson peer')
    (hwatched : peer.Watched) : peer'.Watched := by
  induction h with
  | refl => exact hwatched
  | @push peer' _ out ih =>
      obtain ⟨watchers, hev, hread, hwrite⟩ := ih
      by_cases hempty : peer'.wbuf = []
      · refine ⟨watchers.startWrite, ?_, hread, fun _ => rfl⟩
        rw [Peer.push, hev]
        exact if_pos hempty
      · refine ⟨watchers, ?_, hread, fun _ => hwrite hempty⟩
        rw [Peer.push, hev]
        exact if_neg hempty
  | queue _ _ ih => exact ih
  | waiting _ _ ih => exact ih
  | received _ _ _ ih => exact ih

namespace Server

variable {srv srv' : Server} {c : ClientPtr} {clnt : Client} {slack : MsgPtr → Nat}

/-- The watchers of all clients are as they should be. -/
structure Watching (srv : Server) : Prop where
  inv : ∃ slack, srv.Inv slack none
  peers : ∀ c peer, srv.view.peers c = some peer → peer.Watched

theorem Watching.evolves (h : srv.Watching) (hevolves : Evolves jansson slack srv srv') :
    srv'.Watching := by
  refine ⟨⟨slack, hevolves.inv⟩, ?_⟩
  intro c peer' hpeer'
  obtain ⟨peer, hpeer, hpeers⟩ := hevolves.clients.peer hpeer'
  exact hpeers.watched (h.peers c peer hpeer)

theorem Watching.close (h : srv.Watching) (hc : srv.clnts.cells c = some clnt)
    (hrun : srv.close c = .ok srv') : srv'.Watching := by
  obtain ⟨slack, hinv⟩ := h.inv
  obtain ⟨srv'', hrun', hinv', hview⟩ := close_succeed hinv hc
  cases hrun.symm.trans hrun'
  refine ⟨⟨_, hinv'⟩, ?_⟩
  intro c' peer hpeer
  have hpeers : srv'.view.peers = Function.update srv.view.peers c none :=
    congrArg Hub.peers hview
  rw [hpeers] at hpeer
  obtain rfl | hne := eq_or_ne c' c
  · rw [Function.update_self] at hpeer
    cases hpeer
  · rw [Function.update_of_ne hne] at hpeer
    exact h.peers c' peer hpeer

/-- Another socket for one client. -/
theorem Watching.setClient (hinv : srv.Inv slack none) (hc : srv.clnts.cells c = some clnt)
    (hothers : ∀ c' ≠ c, ∀ peer, srv.view.peers c' = some peer → peer.Watched) {sock : Socket}
    (hsock : (Client.view srv.content { clnt with sock }).Watched) :
    (srv.setClient c { clnt with sock }).Watching := by
  refine ⟨⟨slack, inv_setClient hinv hc sock⟩, ?_⟩
  intro c' peer hpeer
  have hcontent : (srv.setClient c { clnt with sock }).content = srv.content := rfl
  rw [view_peers, hcontent] at hpeer
  obtain rfl | hne := eq_or_ne c' c
  · rw [setClient_self hc] at hpeer
    cases hpeer
    exact hsock
  · rw [setClient_of_ne _ hne] at hpeer
    exact hothers c' hne peer hpeer

theorem watching_evServerReadable (h : srv.Watching) {fd : Nat} {handshake : Option Bool}
    (hunused : fd ∉ srv.fd2clnt.iterate.map Entry.key)
    (hrun : srv.evServerReadable fd handshake = .ok srv') : srv'.Watching := by
  obtain ⟨slack, hinv⟩ := h.inv
  unfold evServerReadable at hrun
  split at hrun
  · cases hrun
    exact h
  · next ws =>
      have hlookup : srv.fd2clnt.lookup fd = none := by
        rw [Option.eq_none_iff_forall_ne_some]
        exact fun c hc => hunused ((serving_iff_key hinv).mp ((serving_iff_lookup hinv).mpr ⟨c, hc⟩))
      obtain ⟨mid, haccept, hinv', hview⟩ := accept_succeed hinv fd ws hlookup
      rw [haccept, ok_bind] at hrun
      dsimp only at hrun
      obtain ⟨clnt, hc, hrun⟩ := bind_eq_ok hrun
      cases hrun
      have hcell := deref_eq_ok hc
      have hpeers : mid.view.peers = Function.update srv.view.peers srv.clnts.next (some
          { fd, waiting := false, queue := [], sent := [], wbuf := [], rbuf := [],
            ws := if ws then some [] else none, ev := none }) := congrArg Hub.peers hview
      apply Watching.setClient hinv' hcell
      · intro c' hne peer hpeer
        rw [hpeers, Function.update_of_ne hne] at hpeer
        exact h.peers c' peer hpeer
      · refine ⟨⟨true, false⟩, rfl, rfl, ?_⟩
        intro hwbuf
        -- nothing has been pushed to the new client
        have hnew : mid.view.peers srv.clnts.next = some (clnt.view mid.content) := by
          rw [view_peers, hcell, Option.map_some]
        rw [hpeers, Function.update_self] at hnew
        exact absurd (congrArg Peer.wbuf (Option.some.inj hnew)).symm hwbuf

theorem watching_evClientReadable (h : srv.Watching) {errno : String} {fuel : Nat} {both : Bool}
    {chunk : Except String Bytes} (hc : srv.clnts.cells c = some clnt)
    (hrun : srv.evClientReadable jansson errno fuel c both chunk = .ok srv') : srv'.Watching := by
  obtain ⟨slack, hinv⟩ := h.inv
  unfold evClientReadable at hrun
  split at hrun
  · exact h.close hc hrun
  · obtain ⟨⟨verdict, mid⟩, hread, hrun⟩ := bind_eq_ok hrun
    cases hrun
    unfold readable at hread
    rw [deref_some hc, ok_bind] at hread
    dsimp only at hread
    obtain ⟨hwbuf, hev⟩ := clnt.sock.recvpartial_keeps true true chunk
    have hreceived := evolves_received jansson hinv hc hwbuf hev
    split at hread
    · obtain ⟨closed, hclose, hread⟩ := bind_eq_ok hread
      cases hread
      exact (h.evolves hreceived).close (setClient_self hc) hclose
    · exact h.evolves (hreceived.trans (evolves_popLoop hreceived.inv hread))

/-- Sending takes bytes off the outbuffer. -/
theorem sendpartial_keeps (malloc : Bool) (accepted : Except String Nat) (sock : Socket) :
    ( sock.sendpartial malloc accepted).2.2.ev = sock.ev ∧
      (( sock.sendpartial malloc accepted).2.2.wbuf.toList ≠ [] → sock.wbuf.toList ≠ []) := by
  unfold Socket.sendpartial
  split
  · split
    · exact ⟨rfl, id⟩
    · refine ⟨rfl, ?_⟩
      intro hleft hempty
      rw [Ring.discard_toList, hempty, List.drop_nil] at hleft
      exact hleft rfl
  · exact ⟨rfl, id⟩

theorem watching_evClientWritable (h : srv.Watching) {both : Bool} {accepted : Except String Nat}
    (hc : srv.clnts.cells c = some clnt)
    (hrun : srv.evClientWritable c both accepted = .ok srv') : srv'.Watching := by
  obtain ⟨slack, hinv⟩ := h.inv
  unfold evClientWritable at hrun
  split at hrun
  · exact h.close hc hrun
  · rw [deref_some hc, ok_bind] at hrun
    obtain ⟨hev, hwbuf⟩ := sendpartial_keeps true accepted clnt.sock
    obtain ⟨watchers, hwatchers, hread, hwrite⟩ := h.peers c (clnt.view srv.content)
      (by rw [view_peers, hc, Option.map_some])
    have hsent : (srv.setClient c { clnt with
        sock := (clnt.sock.sendpartial true accepted).2.2 }).Watching := by
      apply Watching.setClient hinv hc
      · exact fun c' _ peer hpeer => h.peers c' peer hpeer
      · exact ⟨watchers, hev.trans hwatchers, hread, fun hleft => hwrite (hwbuf hleft)⟩
    have hinv' := inv_setClient hinv hc (clnt.sock.sendpartial true accepted).2.2
    dsimp only at hrun
    split at hrun
    · exact hsent.close (setClient_self hc) hrun
    · split at hrun
      · next hempty =>
          cases hrun
          apply Watching.setClient hinv' (setClient_self hc)
          · exact fun c' _ peer hpeer => hsent.peers c' peer hpeer
          · refine ⟨watchers.stopWrite, ?_, hread, ?_⟩
            · exact congrArg (Option.map Watchers.stopWrite) (hev.trans hwatchers)
            · intro hleft
              refine absurd (List.length_eq_zero_iff.mp ?_) hleft
              exact (Ring.length_toList _).trans hempty
      · cases hrun
        exact hsent

theorem Callbacks.watching (h : Callbacks jansson srv) : srv.Watching := by
  induction h with
  | start hinit =>
      refine ⟨⟨_, init_inv hinit⟩, ?_⟩
      intro c peer hpeer
      cases hinit
      cases hpeer
  | serverReadable _ hunused hstep ih => exact watching_evServerReadable ih hunused hstep
  | clientReadable _ hregistered hstep ih =>
      obtain ⟨slack, hinv⟩ := ih.inv
      obtain ⟨clnt, hc⟩ := hinv.registry.mem_clients.mp hregistered
      exact watching_evClientReadable ih hc hstep
  | clientWritable _ hregistered hstep ih =>
      obtain ⟨slack, hinv⟩ := ih.inv
      obtain ⟨clnt, hc⟩ := hinv.registry.mem_clients.mp hregistered
      exact watching_evClientWritable ih hc hstep

end Server

open Server

/-- Whenever the `select` loop calls `select`, it waits to read from the descriptors that it
listens on and from all clients, and to write to the clients with something in the
outbuffer; and after every callback of the libev loop the watchers for reading of all
clients are active, and those for writing where there is something in the outbuffer. -/
theorem output_awaited (jansson : Jansson Json) :
    (∀ fds st, Select.Calls jansson fds st →
      (∀ fd, fd ∈ st.rfds ↔ fd ∈ fds ∨ fd ∈ st.srv.fd2clnt.iterate.map Entry.key) ∧
      ∀ fd, fd ∈ st.wfds ↔ ∃ c clnt, (fd, c) ∈ st.srv.fd2clnt.iterate.map
        (fun entry => (entry.key, entry.val)) ∧ st.srv.clnts.cells c = some clnt ∧
        0 < clnt.sock.wbuf.len) ∧
    ∀ srv, Callbacks jansson srv → ∀ c ∈ srv.registered, ∃ clnt watchers,
      srv.clnts.cells c = some clnt ∧ clnt.sock.ev = some watchers ∧ watchers.rwatcher = true ∧
        (0 < clnt.sock.wbuf.len → watchers.wwatcher = true) := by
  constructor
  · intro fds st h
    obtain ⟨hinv, hwfds⟩ := h.exact
    obtain ⟨slack, hsrv⟩ := hinv.srv
    constructor
    · intro fd
      rw [hinv.rfds, serving_iff_key hsrv]
    · intro fd
      rw [hwfds]
      refine exists_congr fun c => exists_congr fun clnt => ?_
      rw [Table.mem_iterate_iff_lookup hsrv.registry.fd_wf.toCore, hsrv.registry.fd_lookup]
      constructor
      · rintro ⟨hc, hfd, hlen⟩
        exact ⟨⟨clnt, hc, hfd⟩, hc, hlen⟩
      · rintro ⟨⟨clnt', hc', hfd⟩, hc, hlen⟩
        cases hc.symm.trans hc'
        exact ⟨hc, hfd, hlen⟩
  · intro srv h c hregistered
    obtain ⟨⟨slack, hinv⟩, hpeers⟩ := h.watching
    obtain ⟨clnt, hc⟩ := hinv.registry.mem_clients.mp hregistered
    obtain ⟨watchers, hev, hread, hwrite⟩ := hpeers c (clnt.view srv.content)
      (by rw [view_peers, hc, Option.map_some])
    refine ⟨clnt, watchers, hc, hev, hread, fun hlen => hwrite ?_⟩
    intro hempty
    rw [← Ring.length_toList, show clnt.sock.wbuf.toList = [] from hempty] at hlen
    exact absurd hlen (lt_irrefl 0)

/-! ## A run -/

namespace Select

/-- Play rounds in which the given descriptors are ready to be read. -/
def play (jansson : Jansson Json) (kernel : Kernel) (fds : List Nat) :
    List (Finset Nat) → Select → Option Select
  | [], st => some st
  | rready :: rest, st =>
      if rready ⊆ st.rfds then
        match st.round jansson kernel "" 2 fds rready ∅ with
        | .ok (.stays, st') =>
            if st'.maxfd ≤ fdSetSize then play jansson kernel fds rest st' else none
        | _ => none
      else none

theorem play_calls {jansson : Jansson Json} {kernel : Kernel} {fds : List Nat}
    {rounds : List (Finset Nat)} {st st' : Select} (before : Calls jansson fds st)
    (hplay : play jansson kernel fds rounds st = some st') : Calls jansson fds st' := by
  induction rounds generalizing st with
  | nil =>
      cases hplay
      exact before
  | cons rready rest ih =>
      unfold play at hplay
      split at hplay
      · next hready =>
          split at hplay
          · next hround =>
              split at hplay
              · next hsmall =>
                  exact ih (before.round kernel "" 2 hready (Finset.empty_subset _) hround hsmall) hplay
              · cases hplay
          · cases hplay
      · cases hplay

end Select

/-- A kernel on which every connection is plain, and every client sends a request. -/
def requests : Kernel where
  accept _ used := max 3 (used.sup id + 1)
  accept_unused := by
    intro i used hmem
    have hle : max 3 (used.sup id + 1) ≤ used.sup id := Finset.le_sup (f := id) hmem
    exact absurd (le_trans (le_max_right 3 _) hle) (Nat.not_succ_le_self _)
  accept_ge _ _ := le_max_left _ _
  handshake _ := some false
  recv _ := .ok (Socket.header 24 0 ++ (syncRequest 1).compact)
  send _ := .ok 0

/-- A request on the first connection of the libev loop. -/
theorem callbacks_reply : ∃ srv clnt, Callbacks syncOnly srv ∧ 0 ∈ srv.registered ∧
    srv.clnts.cells 0 = some clnt ∧ 0 < clnt.sock.wbuf.len := by
  have hscript : ((Server.init fun _ => true).bind fun start =>
      ((start.evServerReadable 4 (some false)).toOption).bind fun mid =>
        ((mid.evClientReadable syncOnly "" 2 0 false (requests.recv 4)).toOption).bind fun srv =>
          (srv.clnts.cells 0).map fun clnt => decide (4 ∉ start.fd2clnt.iterate.map Entry.key ∧
            0 ∈ mid.registered ∧ 0 ∈ srv.registered ∧ 0 < clnt.sock.wbuf.len)) = some true := by
    decide +kernel
  obtain ⟨start, hinit, hscript⟩ := Option.bind_eq_some_iff.mp hscript
  obtain ⟨mid, haccept, hscript⟩ := Option.bind_eq_some_iff.mp hscript
  obtain ⟨srv, hread, hscript⟩ := Option.bind_eq_some_iff.mp hscript
  obtain ⟨clnt, hc, hvalue⟩ := Option.map_eq_some_iff.mp hscript
  obtain ⟨hunused, hmid, hregistered, hlen⟩ := of_decide_eq_true hvalue
  have hcalls := ((Callbacks.start hinit).serverReadable hunused
    (ok_of_toOption haccept)).clientReadable hmid (ok_of_toOption hread)
  exact ⟨srv, clnt, hcalls, hregistered, hc, hlen⟩

/-- The reply to a request is waited for to be written, in both loops. -/
theorem output_awaited_reply :
    (∃ st, Select.Calls syncOnly [3] st ∧ 4 ∈ st.wfds ∧
      4 ∈ st.srv.fd2clnt.iterate.map Entry.key) ∧
    ∃ srv clnt watchers, Callbacks syncOnly srv ∧ srv.clnts.cells 0 = some clnt ∧
      clnt.sock.ev = some watchers ∧ watchers.wwatcher = true := by
  constructor
  rotate_left
  · obtain ⟨srv, clnt, h, hregistered, hc, hlen⟩ := callbacks_reply
    obtain ⟨clnt', watchers, hc', hev, _, hwrite⟩ := (output_awaited syncOnly).2 srv h 0 hregistered
    cases hc.symm.trans hc'
    exact ⟨srv, clnt, watchers, h, hc, hev, hwrite hlen⟩
  · have hscript : ((Server.init fun _ => true).bind fun srv =>
        (Select.play syncOnly requests [3] [{3}, {4}] (.start [3] srv)).map fun st =>
          decide (4 ∈ st.rfds ∧ 4 ∈ st.wfds)) = some true := by
      decide +kernel
    obtain ⟨srv, hinit, hscript⟩ := Option.bind_eq_some_iff.mp hscript
    obtain ⟨st, hplay, hready⟩ := Option.map_eq_some_iff.mp hscript
    obtain ⟨hread, hwrite⟩ := of_decide_eq_true hready
    have hsmall : (Select.start [3] srv).maxfd ≤ fdSetSize := show 4 ≤ 1024 by decide
    have hcalls := Select.play_calls (.start hinit hsmall) hplay
    refine ⟨st, hcalls, hwrite, ?_⟩
    obtain hlistening | hclient := (((output_awaited syncOnly).1 [3] st hcalls).1 4).mp hread
    · exact absurd hlistening (by decide)
    · exact hclient

end Dime
