/-
Host name lookups of LPC sockets (`socket_efuns.c`): a `socket_connect` by host name starts a request to the resolver,
or joins the one that another socket, its leader, has started for the same host and port.

A socket has a state, and an operation with a phase; beside them stands what its lookup hangs on: the leader, the number
of the operation of the leader, and the number of the request. A result goes to the sockets that name the leader which
still leads its request. What the network, the resolver and the event loop answer is left to the steps.
A close that calls back is in two steps, and anything can happen between them.

Results:
* `lookup_answered`: if no step has restarted or closed a socket while others hang on its lookup, then every open socket
  that waits for a request stops waiting when the result arrives.
* `follower_stranded`: a socket waits for ever when its leader is closed.
-/
import Lithos.Lpc.Types

namespace Lithos.Socket.SocketDns

open Lithos.Lpc List

/-! ## Sockets and their operations -/

/-- `enum socket_state` -/
inductive SocketState where
  | closed
  | flushing
  | unbound
  | bound
  | listen
  | dataXfer
deriving DecidableEq, Repr

/-- `enum socket_operation_phase` -/
inductive Phase where
  | init
  | dnsResolving
  | connecting
  | transferring
  | completed
  | failed
  | timedOut
  | canceled
deriving DecidableEq, Repr

/-- `is_socket_operation_terminal_phase` -/
def Phase.isTerminal : Phase → Bool
  | .completed | .failed | .timedOut | .canceled => true
  | _ => false

/-- `can_transition_socket_operation_phase` -/
def Phase.canTransition (source target : Phase) : Bool :=
  if source = target then true
  else
    match source with
    | .init => target = .dnsResolving || target = .connecting || target.isTerminal
    | .dnsResolving => target = .connecting || target.isTerminal
    | .connecting => target = .transferring || target.isTerminal
    | .transferring => target.isTerminal
    | _ => false

/-- `socket_operation_t` -/
structure Operation where
  active : Bool
  terminal : Bool
  opId : ℕ
  phase : Phase
deriving DecidableEq, Repr

/-- the entries of `dns_pending_…` for a socket; there is no leader and no number of its operation for -1 -/
structure DnsPending where
  hostname : List Byte
  port : ℕ
  leader : Option ℕ
  leaderOpId : Option ℕ
  requestId : ℤ
deriving DecidableEq, Repr

/-- a socket, its operation and its lookup; `blocked` is S_BLOCKED -/
structure Sock where
  state : SocketState
  blocked : Bool
  op : Operation
  dns : DnsPending
deriving DecidableEq, Repr

open Sock

namespace Sock

/-- `clear_dns_pending_resolution` -/
def clearDns (k : Sock) : Sock := { k with dns := ⟨[], 0, none, none, 0⟩ }

/-- `clear_socket_operation` -/
def clearOperation (k : Sock) : Sock := { k.clearDns with op := ⟨false, false, 0, .init⟩ }

/-- `start_socket_operation` -/
def startOperation (k : Sock) (opId : ℕ) : Sock := { k.clearOperation with op := ⟨true, false, opId, .init⟩ }

/-- `set_socket_operation_phase`, which may refuse -/
def setPhase (k : Sock) (phase : Phase) : Option Sock :=
  if k.op.active ∧ k.op.phase.canTransition phase then some { k with op := { k.op with phase := phase } } else none

/-- `complete_socket_operation` -/
def complete (k : Sock) (phase : Phase) : Sock :=
  if phase.isTerminal ∧ k.op.active ∧ !k.op.terminal then
    match k.setPhase phase with
    | some k => { k with op := { k.op with terminal := true } }.clearOperation
    | none => k
  else k

/-- the end of `socket_close`, after the callback; `runtimeOk` is the answer of `modify_socket_runtime` -/
def finishClose (k : Sock) (runtimeOk : Bool) : Sock :=
  if k.blocked then { k with state := .flushing, blocked := runtimeOk }
  else { k with state := .closed }

/-- the socket is neither closed nor about to be -/
def isOpen (k : Sock) : Bool := k.state ≠ .closed && k.state ≠ .flushing

/-- `socket_close` with SC_FORCE and no callback -/
def forceClose (k : Sock) (runtimeOk : Bool) : Sock :=
  if k.isOpen then (k.complete .canceled).finishClose runtimeOk else k

/-- `socket_close` with SC_FORCE and SC_FINAL_CLOSE -/
def finalClose (k : Sock) (runtimeOk : Bool) : Sock :=
  if k.state ≠ .closed then (k.complete .canceled).finishClose runtimeOk else k

/-- the socket waits for a lookup -/
def waits (k : Sock) : Bool := k.op.active && k.op.phase = .dnsResolving

end Sock

/-- what the system answers: whether `connect` gets under way, and `modify_socket_runtime` when the socket connects and
when it closes -/
structure Net where
  connects : Bool
  runtimeOk : Bool
  closeOk : Bool
deriving DecidableEq, Repr

/-- the connection is under way: the state, S_BLOCKED and the phase -/
def Sock.underWay (k : Sock) : Sock :=
  let k := { k with state := .dataXfer, blocked := true }
  (k.setPhase .transferring).getD k

/-- `connect` and what comes after it, for a socket in phase `connecting` -/
def Sock.connect (k : Sock) (net : Net) : Sock :=
  if net.connects then
    if net.runtimeOk then k.underWay else (k.underWay.forceClose net.closeOk).complete .failed
  else k.complete .failed

/-- `apply_dns_result_to_socket` -/
def Sock.applyDnsResult (k : Sock) (timedOut success : Bool) (net : Net) : Sock :=
  if k.isOpen ∧ k.waits then
    if timedOut then k.complete .timedOut
    else if success then
      match k.setPhase .connecting with
      | some k => k.connect net
      | none => k.complete .failed
    else k.complete .failed
  else k

/-! ## All sockets -/

/-- `SOCKET_DNS_REQUEST_ID_BASE` -/
def dnsRequestIdBase : ℤ := 201

/-- `lpc_socks` with `max_lpc_socks` entries, and the numbers for new operations and requests; `closing` are the sockets
whose close callbacks run, the last one first -/
structure State where
  sock : ℕ → Sock
  maxSocks : ℕ
  nextOpId : ℕ
  /-- an `int` -/
  nextRequestId : ℤ
  closing : List ℕ

open State

/-- a socket as `more_lpc_sockets` makes it -/
def freshSock : Sock := ⟨.closed, false, ⟨false, false, 0, .init⟩, ⟨[], 0, none, none, 0⟩⟩

/-- before the first socket -/
def start : State := ⟨fun _ => freshSock, 0, 1, dnsRequestIdBase, []⟩

namespace State

/-- one socket changed -/
def set (s : State) (i : ℕ) (k : Sock) : State := { s with sock := Function.update s.sock i k }

/-- the slot that `find_new_socket` takes, if there is one -/
def freeSlot (s : State) : Option ℕ :=
  (range s.maxSocks).find? fun i => (s.sock i).state = .closed

/-- `more_lpc_sockets` -/
def moreSockets (s : State) : State :=
  { s with sock := fun i => if s.maxSocks ≤ i then freshSock else s.sock i, maxSocks := s.maxSocks + 10 }

/-- `find_new_socket`: a closed socket is cleared, or there are ten more -/
def findNewSocket (s : State) : State × ℕ :=
  match s.freeSlot with
  | some i => (s.set i (s.sock i).clearOperation, i)
  | none => (s.moreSockets, s.maxSocks)

/-- the socket that leads a lookup of this host and port, looked for by `queue_dns_resolution` of socket `i` -/
def isLeaderFor (s : State) (i : ℕ) (hostname : List Byte) (port : ℕ) (j : ℕ) : Bool :=
  j ≠ i && (s.sock j).waits && (s.sock j).dns.leader = some j && (s.sock j).dns.port = port &&
    (s.sock j).dns.hostname = hostname && 0 < (s.sock j).dns.requestId

/-- the number of the next request -/
def newRequestId (s : State) : ℤ := max s.nextRequestId dnsRequestIdBase

/-- `queue_dns_resolution`; `admitted` is the answer of the resolver. Without a lookup the operation has failed. -/
def queueDnsResolution (s : State) (i : ℕ) (hostname : List Byte) (port : ℕ) (admitted : Bool) : State :=
  if hostname = [] then s.set i ((s.sock i).complete .failed)
  else
    match (range s.maxSocks).find? (s.isLeaderFor i hostname port) with
    | some j =>
      s.set i { s.sock i with dns := ⟨hostname, port, some j, some (s.sock j).op.opId, (s.sock j).dns.requestId⟩ }
    | none =>
      let requestId := s.newRequestId
      let s := { s with nextRequestId := (requestId + 1).bmod (2 ^ 32) }
      if admitted then s.set i { s.sock i with dns := ⟨hostname, port, some i, some (s.sock i).op.opId, requestId⟩ }
      else s.set i ((s.sock i).clearDns.complete .failed)

/-- `socket_connect` gets to starting an operation -/
def canConnect (s : State) (i : ℕ) : Bool :=
  i < s.maxSocks && ((s.sock i).state = .unbound || (s.sock i).state = .bound)

/-- a new operation in the phase `phase` -/
def startOperation (s : State) (i : ℕ) (phase : Phase) : State :=
  let k := (s.sock i).startOperation s.nextOpId
  { s.set i ((k.setPhase phase).getD k) with nextOpId := s.nextOpId + 1 }

/-- `socket_connect` by a host name that is not in the cache -/
def connectByName (s : State) (i : ℕ) (hostname : List Byte) (port : ℕ) (admitted : Bool) : State :=
  if s.canConnect i then (s.startOperation i .dnsResolving).queueDnsResolution i hostname port admitted else s

/-- `socket_connect` by an address, or by a host name that is in the cache -/
def connectByAddress (s : State) (i : ℕ) (net : Net) : State :=
  if s.canConnect i then
    let s := s.startOperation i .connecting
    s.set i ((s.sock i).connect net)
  else s

/-- `socket_close` that is not refused, up to its callback if it has one -/
def close (s : State) (i : ℕ) (callback runtimeOk : Bool) : State :=
  if i < s.maxSocks ∧ (s.sock i).isOpen then
    let k := (s.sock i).complete .canceled
    if callback then { s.set i k with closing := i :: s.closing } else s.set i (k.finishClose runtimeOk)
  else s

/-- the close callback returns to `socket_close` -/
def closeReturns (s : State) (runtimeOk : Bool) : State :=
  match s.closing with
  | i :: rest => { s.set i ((s.sock i).finishClose runtimeOk) with closing := rest }
  | [] => s

/-- the result of a lookup as the sockets see it; `success` includes that the text is an address -/
structure DnsResult where
  requestId : ℤ
  timedOut : Bool
  success : Bool
deriving DecidableEq, Repr

/-- the socket that leads the request, looked for by `handle_socket_dns_resolver_result` -/
def leadsRequest (s : State) (requestId : ℤ) (i : ℕ) : Bool :=
  (s.sock i).dns.leader = some i && (s.sock i).dns.requestId = requestId && (s.sock i).waits &&
    (s.sock i).dns.leaderOpId = some (s.sock i).op.opId

/-- `handle_socket_dns_resolver_result`; every turn of its second loop deals with one socket alone -/
def handleDnsResult (s : State) (r : DnsResult) (net : ℕ → Net) : State :=
  match (range s.maxSocks).find? (s.leadsRequest r.requestId) with
  | none => s
  | some leader =>
    { s with sock := fun i =>
        if i < s.maxSocks ∧ (s.sock i).dns.requestId = r.requestId ∧
            (s.sock i).dns.leaderOpId = some (s.sock leader).op.opId then
          (s.sock i).applyDnsResult r.timedOut r.success (net i)
        else s.sock i }

/-- how a write of `socket_write_select_handler` goes -/
inductive Write where
  | again
  | error
  | drained
deriving DecidableEq, Repr

/-- `socket_write_select_handler`, for the operation of the socket -/
def writeSelect (s : State) (i : ℕ) (write : Write) (runtimeOk : Bool) : State :=
  let k := s.sock i
  if i < s.maxSocks ∧ k.blocked then
    match write with
    | .again => s
    | .error => if k.state = .flushing then s.set i ({ k with blocked := false }.finalClose runtimeOk) else s
    | .drained =>
      let k := { k with blocked := false }
      if !runtimeOk ∨ k.state = .flushing then s.set i (k.finalClose runtimeOk) else s.set i (k.complete .completed)
  else s

end State

open State

/-! ## Runs -/

/-- what can happen to the sockets; the bits are the answers of the system -/
inductive Step where
  | create (ok : Bool)
  | accept (blocked ok : Bool)
  | bind (i : ℕ)
  | listen (i : ℕ)
  | connectByName (i : ℕ) (hostname : List Byte) (port : ℕ) (admitted : Bool)
  | connectByAddress (i : ℕ) (net : Net)
  | close (i : ℕ) (callback runtimeOk : Bool)
  | closeReturns (runtimeOk : Bool)
  | writeSelect (i : ℕ) (write : Write) (runtimeOk : Bool)
  | dnsResult (r : DnsResult) (net : ℕ → Net)

def step (s : State) : Step → State
  | .create ok =>
    let (s, i) := s.findNewSocket
    if ok then s.set i { s.sock i with state := .unbound, blocked := false } else s
  | .accept blocked ok =>
    let (s, i) := s.findNewSocket
    s.set i { s.sock i with state := if ok then .dataXfer else .closed, blocked := blocked }
  | .bind i =>
    if i < s.maxSocks ∧ (s.sock i).state = .unbound then s.set i { s.sock i with state := .bound } else s
  | .listen i =>
    if i < s.maxSocks ∧ (s.sock i).state = .bound then s.set i { s.sock i with state := .listen } else s
  | .connectByName i hostname port admitted => s.connectByName i hostname port admitted
  | .connectByAddress i net => s.connectByAddress i net
  | .close i callback runtimeOk => s.close i callback runtimeOk
  | .closeReturns runtimeOk => s.closeReturns runtimeOk
  | .writeSelect i write runtimeOk => s.writeSelect i write runtimeOk
  | .dnsResult r net => s.handleDnsResult r net

def run (s : State) (steps : List Step) : State := steps.foldl step s

/-! ## Which steps strand others -/

/-- the socket whose operation a step starts anew or ends -/
def disturbs (s : State) : Step → Option ℕ
  | .create _ | .accept _ _ => s.freeSlot
  | .connectByName i _ _ _ | .connectByAddress i _ => if s.canConnect i then some i else none
  | .close i _ _ => if i < s.maxSocks ∧ (s.sock i).isOpen then some i else none
  | _ => none

/-- the open socket `j` hangs on the lookup of another socket `i` -/
def HangsOn (s : State) (j i : ℕ) : Prop :=
  j < s.maxSocks ∧ j ≠ i ∧ (s.sock j).isOpen = true ∧ (s.sock j).waits = true ∧ (s.sock j).dns.leader = some i

/-- a step disturbs a socket on whose lookup another hangs -/
def Strands (s : State) (st : Step) : Prop :=
  ∃ i, disturbs s st = some i ∧ ∃ j, HangsOn s j i

/-- a lookup may start with a number that has come round and is still in use -/
def reuses (s : State) : Step → Bool
  | .connectByName .. => (range s.maxSocks).any (s.leadsRequest s.newRequestId)
  | _ => false

/-- no step of a run strands a socket, or uses a number again -/
def Considerate : State → List Step → Prop
  | _, [] => True
  | s, st :: rest => (¬ Strands s st ∧ reuses s st = false) ∧ Considerate (step s st) rest

instance (s : State) (j i : ℕ) : Decidable (HangsOn s j i) :=
  inferInstanceAs (Decidable (_ ∧ _ ∧ _ ∧ _ ∧ _))

instance (s : State) (st : Step) : Decidable (Strands s st) :=
  decidable_of_iff (∃ i ∈ (disturbs s st).toList, ∃ j ∈ range s.maxSocks, HangsOn s j i) <| by
    simp only [Option.mem_toList, mem_range, Strands]
    exact ⟨fun ⟨i, hi, j, _, hj⟩ => ⟨i, hi, j, hj⟩, fun ⟨i, hi, j, hj⟩ => ⟨i, hi, j, hj.1, hj⟩⟩

instance decidableConsiderate : (s : State) → (steps : List Step) → Decidable (Considerate s steps)
  | _, [] => inferInstanceAs (Decidable True)
  | s, st :: rest =>
    have := decidableConsiderate (step s st) rest
    inferInstanceAs (Decidable (_ ∧ _))

/-! ## One socket -/

namespace Sock

/-- a socket without a connection has nothing to write, and one that waits has no connection -/
structure Sound (k : Sock) : Prop where
  unblocked : k.state = .unbound ∨ k.state = .bound ∨ k.state = .listen → k.blocked = false
  calm : k.waits = true → k.op.terminal = false ∧ k.blocked = false ∧ k.state ≠ .dataXfer ∧ k.state ≠ .flushing

theorem complete_eq (k : Sock) (phase : Phase) : k.complete phase = k ∨ k.complete phase = k.clearOperation := by
  simp only [complete]
  split_ifs
  · cases h : k.setPhase phase with
    | none => exact .inl rfl
    | some k' =>
      simp only [setPhase, Option.ite_none_right_eq_some] at h
      obtain ⟨-, h⟩ := h
      cases h
      exact .inr rfl
  · exact .inl rfl

@[simp] theorem complete_keeps (k : Sock) (phase : Phase) :
    (k.complete phase).state = k.state ∧ (k.complete phase).blocked = k.blocked := by
  rcases complete_eq k phase with h | h
  · rw [h]
    exact ⟨rfl, rfl⟩
  · rw [h]
    exact ⟨rfl, rfl⟩

variable {k : Sock} {phase : Phase}

/-- a socket that does not wait does not wait when its operation ends -/
theorem waits_complete_of_not (h : k.waits = false) (phase : Phase) : (k.complete phase).waits = false := by
  rcases complete_eq k phase with heq | heq
  · rwa [heq]
  · rw [heq]
    rfl

/-- the end of an operation ends waiting -/
theorem waits_complete (h : k.Sound) (hphase : phase.isTerminal = true) : (k.complete phase).waits = false := by
  cases hwaits : k.waits with
  | false => exact waits_complete_of_not hwaits phase
  | true =>
    obtain ⟨hterminal, -⟩ := h.calm hwaits
    simp only [waits, Bool.and_eq_true, decide_eq_true_eq] at hwaits
    have hmoves : Phase.canTransition .dnsResolving phase = true := by
      cases phase <;> first | rfl | cases hphase
    have heq : k.complete phase = k.clearOperation := by
      simp [complete, setPhase, hphase, hwaits, hterminal, hmoves, clearOperation, clearDns]
    rw [heq]
    rfl

/-- a sound socket that does not wait -/
def Quiet (k : Sock) : Prop := k.Sound ∧ k.waits = false

theorem quiet (hwaits : k.waits = false)
    (h : k.state = .unbound ∨ k.state = .bound ∨ k.state = .listen → k.blocked = false) : k.Quiet :=
  ⟨⟨h, fun hw => by simp [hwaits] at hw⟩, hwaits⟩

theorem Sound.complete (h : k.Sound) (hphase : phase.isTerminal = true) : (k.complete phase).Quiet :=
  quiet (waits_complete h hphase) (by simpa using h.unblocked)

@[simp] theorem waits_finishClose (k : Sock) (runtimeOk : Bool) : (k.finishClose runtimeOk).waits = k.waits := by
  simp only [finishClose]
  split_ifs <;> rfl

theorem state_finishClose (k : Sock) (runtimeOk : Bool) :
    (k.finishClose runtimeOk).state = .flushing ∨ (k.finishClose runtimeOk).state = .closed := by
  simp only [finishClose]
  split_ifs <;> simp

theorem Sound.finishClose (h : k.Sound) (runtimeOk : Bool) : (k.finishClose runtimeOk).Sound := by
  refine ⟨fun hstate => ?_, fun hwaits => ?_⟩
  · rcases state_finishClose k runtimeOk with hs | hs <;> simp [hs] at hstate
  · rw [waits_finishClose] at hwaits
    obtain ⟨hterminal, hblocked, -, -⟩ := h.calm hwaits
    simp [Sock.finishClose, hblocked, hterminal]

/-- closing a socket ends waiting -/
theorem Sound.closed (h : k.Sound) (runtimeOk : Bool) : ((k.complete .canceled).finishClose runtimeOk).Quiet :=
  ⟨(h.complete rfl).1.finishClose runtimeOk, (waits_finishClose _ _).trans (waits_complete h rfl)⟩

theorem Quiet.closeIf {c : Prop} [Decidable c] (h : k.Quiet) (runtimeOk : Bool) :
    (if c then (k.complete .canceled).finishClose runtimeOk else k).Quiet := by
  split_ifs
  · exact h.1.closed runtimeOk
  · exact h

theorem Quiet.underWay (h : k.Quiet) : k.underWay.Quiet := by
  simp only [Sock.underWay, setPhase]
  split_ifs
  · exact quiet (by simp [waits]) (by simp)
  · exact quiet h.2 (by simp)

/-- a socket that gets its connection, or does not, does not wait -/
theorem Quiet.connect (h : k.Quiet) (net : Net) : (k.connect net).Quiet := by
  rw [Sock.connect]
  split_ifs
  · exact h.underWay
  · exact (h.underWay.closeIf net.closeOk).1.complete rfl
  · exact h.1.complete rfl

/-- a result ends the waiting of an open socket -/
theorem applyDnsResult_sound (h : k.Sound) (timedOut success : Bool) (net : Net) :
    (k.applyDnsResult timedOut success net).Sound ∧
      (k.isOpen = true → (k.applyDnsResult timedOut success net).waits = false) := by
  rw [applyDnsResult]
  split_ifs with hopen htimeout hsuccess
  · exact ⟨(h.complete rfl).1, fun _ => (h.complete rfl).2⟩
  · have hphase : k.setPhase .connecting = some { k with op := { k.op with phase := .connecting } } := by
      have hwaits := hopen.2
      simp only [waits, Bool.and_eq_true, decide_eq_true_eq] at hwaits
      simp [setPhase, hwaits, Phase.canTransition]
    rw [hphase]
    have hnot : ({ k with op := { k.op with phase := .connecting } } : Sock).waits = false := by simp [waits]
    obtain ⟨hsound, hquiet⟩ := (quiet hnot h.unblocked).connect net
    exact ⟨hsound, fun _ => hquiet⟩
  · exact ⟨(h.complete rfl).1, fun _ => (h.complete rfl).2⟩
  · refine ⟨h, fun hisOpen => ?_⟩
    simpa [hisOpen] using hopen

/-- a socket that is closed keeps what it has -/
theorem applyDnsResult_of_not_open (h : k.isOpen = false) (timedOut success : Bool) (net : Net) :
    k.applyDnsResult timedOut success net = k := by
  simp [applyDnsResult, h]

end Sock

/-! ## All sockets of a considerate run -/

/-- the socket `l` leads the lookup with this number of a request -/
structure Leads (s : State) (l : ℕ) (requestId : ℤ) : Prop where
  lt : l < s.maxSocks
  waits : (s.sock l).waits = true
  leader : (s.sock l).dns.leader = some l
  requestId : (s.sock l).dns.requestId = requestId

/-- what holds in every state of a considerate run: an open socket that waits has a leader, which is the only one of its
request -/
structure Inv (s : State) : Prop where
  sound : ∀ i, (s.sock i).Sound
  led : ∀ j < s.maxSocks, (s.sock j).isOpen = true → (s.sock j).waits = true →
    ∃ l, Leads s l (s.sock j).dns.requestId ∧ (s.sock j).dns.leader = some l ∧
      (s.sock j).dns.leaderOpId = some (s.sock l).op.opId
  ownOp : ∀ l requestId, Leads s l requestId → (s.sock l).dns.leaderOpId = some (s.sock l).op.opId
  unique : ∀ l l' requestId, Leads s l requestId → Leads s l' requestId → l = l'

theorem inv_start : Inv start where
  sound _ := ⟨fun _ => rfl, nofun⟩
  led _ hj := absurd hj (Nat.not_lt_zero _)
  ownOp _ _ h := absurd h.lt (Nat.not_lt_zero _)
  unique _ _ _ h := absurd h.lt (Nat.not_lt_zero _)

variable {s : State} {i j l : ℕ} {requestId : ℤ} {k : Sock} {s' : State}

theorem sock_set_of_ne (k : Sock) (h : j ≠ i) : (s.set i k).sock j = s.sock j := by
  simp [State.set, h]

theorem sock_set_self (s : State) (i : ℕ) (k : Sock) : (s.set i k).sock i = k := by
  simp [State.set]

theorem forall_sock {P : ℕ → Sock → Prop} (hi : P i k) (h : ∀ j, P j (s.sock j)) (j : ℕ) :
    P j ((s.set i k).sock j) := by
  by_cases hj : j = i
  · subst hj
    rwa [sock_set_self]
  · rw [sock_set_of_ne k hj]
    exact h j

theorem Leads.congr (h : Leads s l requestId) (hlt : l < s'.maxSocks)
    (hsock : s'.sock l = s.sock l) : Leads s' l requestId :=
  ⟨hlt, hsock ▸ h.waits, hsock ▸ h.leader, hsock ▸ h.requestId⟩

/-- a lookup of another socket is led by the same socket when socket `i` changes -/
theorem leads_set_iff (h : l ≠ i) : Leads (s.set i k) l requestId ↔ Leads s l requestId :=
  ⟨fun hl => hl.congr hl.lt (sock_set_of_ne k h).symm, fun hl => hl.congr hl.lt (sock_set_of_ne k h)⟩

section

variable (h : Inv s)
include h

/-- a socket on whose lookup nobody hangs changes. If it waits then, it has a leader; and if it is one itself, its request
is a new one. -/
theorem Inv.replace (hsound : k.Sound) (hfree : ∀ j, ¬ HangsOn s j i)
    (hled : i < s.maxSocks → k.waits = true → ∃ l, Leads (s.set i k) l k.dns.requestId ∧
      k.dns.leader = some l ∧ k.dns.leaderOpId = some ((s.set i k).sock l).op.opId)
    (hlead : ∀ r, Leads (s.set i k) i r → k.dns.leaderOpId = some k.op.opId ∧ ∀ l, ¬ Leads s l r) :
    Inv (s.set i k) := by
  have hcases {l : ℕ} {r : ℤ} (hl : Leads (s.set i k) l r) : l = i ∨ l ≠ i ∧ Leads s l r := by
    by_cases hli : l = i
    · exact .inl hli
    · exact .inr ⟨hli, (leads_set_iff hli).1 hl⟩
  refine ⟨forall_sock hsound h.sound, fun j hlt hopen hwaits => ?_, fun l r hl => ?_, fun l l' r hl hl' => ?_⟩
  · by_cases hj : j = i
    · subst hj
      rw [sock_set_self] at hwaits ⊢
      exact hled hlt hwaits
    · rw [sock_set_of_ne k hj] at hopen hwaits ⊢
      obtain ⟨l, hl, hleader, hop⟩ := h.led j hlt hopen hwaits
      have hli : l ≠ i := by
        rintro rfl
        exact hfree j ⟨hlt, hj, hopen, hwaits, hleader⟩
      exact ⟨l, (leads_set_iff hli).2 hl, hleader, by rwa [sock_set_of_ne k hli]⟩
  · rcases hcases hl with rfl | ⟨hli, hold⟩
    · rw [sock_set_self]
      exact (hlead r hl).1
    · rw [sock_set_of_ne k hli]
      exact h.ownOp l r hold
  · rcases hcases hl with rfl | ⟨-, hold⟩ <;> rcases hcases hl' with rfl | ⟨-, hold'⟩
    · rfl
    · exact absurd hold' ((hlead r hl).2 l')
    · exact absurd hold ((hlead r hl').2 l)
    · exact h.unique l l' r hold hold'

/-- a socket changes to one that does not wait, and nobody hangs on its lookup -/
theorem Inv.set (hk : k.Quiet) (hfree : ∀ j, ¬ HangsOn s j i) : Inv (s.set i k) := by
  refine h.replace hk.1 hfree (fun _ hw => ?_) fun r hl => ?_
  · rw [hk.2] at hw
    cases hw
  · have hw := hl.waits
    rw [sock_set_self, hk.2] at hw
    cases hw

/-- a socket joins the lookup of the socket `j` -/
theorem Inv.follow (hsound : k.Sound) (hfree : ∀ j, ¬ HangsOn s j i) (hj : j ≠ i)
    (hleads : Leads s j k.dns.requestId) (hleader : k.dns.leader = some j)
    (hop : k.dns.leaderOpId = some (s.sock j).op.opId) : Inv (s.set i k) := by
  refine h.replace hsound hfree (fun _ _ => ⟨j, (leads_set_iff hj).2 hleads, hleader, ?_⟩) fun r hl => ?_
  · rwa [sock_set_of_ne k hj]
  · have hself := hl.leader
    rw [sock_set_self, hleader, Option.some.injEq] at hself
    exact absurd hself hj

/-- a socket starts a lookup of its own, with a new number -/
theorem Inv.lead (hsound : k.Sound) (hfree : ∀ j, ¬ HangsOn s j i) (hleader : k.dns.leader = some i)
    (hop : k.dns.leaderOpId = some k.op.opId)
    (hnew : ∀ l, ¬ Leads s l k.dns.requestId) : Inv (s.set i k) := by
  refine h.replace hsound hfree (fun hi hw => ⟨i, ⟨hi, ?_, ?_, ?_⟩, hleader, ?_⟩) fun r hl => ?_
  · rwa [sock_set_self]
  · rwa [sock_set_self]
  · rw [sock_set_self]
  · rwa [sock_set_self]
  · have hr := hl.requestId
    rw [sock_set_self] at hr
    exact ⟨hop, hr ▸ hnew⟩

/-- `handle_socket_dns_resolver_result` finds the leader -/
theorem Inv.found (hl : Leads s l requestId) : s.leadsRequest requestId l = true := by
  simp [leadsRequest, hl.leader, hl.requestId, hl.waits, h.ownOp l _ hl]

/-- nobody hangs on a socket that does not wait -/
theorem Inv.not_hangsOn (hi : (s.sock i).waits = false) (j : ℕ) : ¬ HangsOn s j i := by
  rintro ⟨hlt, -, hopen, hwaits, hleader⟩
  obtain ⟨l, hleads, hleader', -⟩ := h.led j hlt hopen hwaits
  rw [hleader, Option.some.injEq] at hleader'
  subst hleader'
  rw [hleads.waits] at hi
  cases hi

/-- sockets that wait are as they were and no others are opened, and the leaders of those that are open wait on -/
theorem Inv.transfer (hsound : ∀ j, (s'.sock j).Sound) (hmax : s.maxSocks ≤ s'.maxSocks)
    (hold : ∀ j < s'.maxSocks, (s'.sock j).waits = true → j < s.maxSocks ∧ (s'.sock j).op = (s.sock j).op ∧
      (s'.sock j).dns = (s.sock j).dns ∧ ((s'.sock j).isOpen = true → (s.sock j).isOpen = true))
    (hleader : ∀ j < s'.maxSocks, (s'.sock j).isOpen = true → (s'.sock j).waits = true →
      ∀ l, Leads s l (s.sock j).dns.requestId → (s'.sock l).waits = true) : Inv s' := by
  have hleads {l : ℕ} {requestId : ℤ} (hl : Leads s' l requestId) : Leads s l requestId := by
    obtain ⟨hlt, hop, hdns, -⟩ := hold l hl.lt hl.waits
    obtain ⟨-, hw, hself, hr⟩ := hl
    rw [hdns] at hself hr
    rw [waits, hop] at hw
    exact ⟨hlt, hw, hself, hr⟩
  refine ⟨hsound, fun j hlt hj hw => ?_, fun l requestId hl => ?_, ?_⟩
  · obtain ⟨hlt', hop, hdns, hopen⟩ := hold j hlt hw
    obtain ⟨l, hl, hleads, hopId⟩ := h.led j hlt' (hopen hj) (by rwa [waits, ← hop])
    have hw' := hleader j hlt hj hw l hl
    have hlt' := hl.lt.trans_le hmax
    obtain ⟨-, hop', hdns', -⟩ := hold l hlt' hw'
    rw [hdns]
    exact ⟨l, ⟨hlt', hw', hdns' ▸ hl.leader, hdns' ▸ hl.requestId⟩, hleads, by rwa [hop']⟩
  · obtain ⟨-, hop, hdns, -⟩ := hold l hl.lt hl.waits
    rw [hdns, hop]
    exact h.ownOp l requestId (hleads hl)
  · intro l l' requestId hl hl'
    exact h.unique l l' requestId (hleads hl) (hleads hl')

/-- a socket changes its state and keeps its operation and its lookup -/
theorem Inv.setState (hsound : k.Sound) (hop : k.op = (s.sock i).op) (hdns : k.dns = (s.sock i).dns)
    (hopen : k.isOpen = true → (s.sock i).isOpen = true) : Inv (s.set i k) := by
  have hold := forall_sock (P := fun j k => k.op = (s.sock j).op ∧ k.dns = (s.sock j).dns ∧
    (k.isOpen = true → (s.sock j).isOpen = true)) ⟨hop, hdns, hopen⟩ fun j => ⟨rfl, rfl, id⟩
  refine h.transfer (forall_sock hsound h.sound) le_rfl (fun j hlt _ => ⟨hlt, hold j⟩) fun j _ _ _ l hl => ?_
  rw [waits, (hold l).1]
  exact hl.waits

/-- the counters and the callbacks that run do not matter -/
theorem Inv.of_sock_eq (hsock : s'.sock = s.sock) (hmax : s'.maxSocks = s.maxSocks) : Inv s' :=
  h.transfer (hsock ▸ h.sound) hmax.ge (fun j hlt _ => by rw [hsock]; exact ⟨hmax ▸ hlt, rfl, rfl, id⟩)
    fun j _ _ _ l hl => by rw [hsock]; exact hl.waits

end

/-! ## The steps -/

theorem sock_moreSockets (h : i < s.maxSocks) : s.moreSockets.sock i = s.sock i :=
  if_neg (not_le.2 h)

theorem lt_of_waits_moreSockets (h : (s.moreSockets.sock i).waits = true) : i < s.maxSocks := by
  by_contra hge
  simp [moreSockets, not_lt.1 hge, freshSock, waits] at h

theorem Inv.moreSockets (h : Inv s) : Inv s.moreSockets := by
  refine h.transfer (fun i => ?_) (Nat.le_add_right _ 10) (fun j _ hw => ?_) fun j _ _ _ l hl => ?_
  · by_cases hi : s.maxSocks ≤ i
    · simp only [State.moreSockets, hi, if_true]
      exact ⟨fun _ => rfl, nofun⟩
    · rw [sock_moreSockets (not_le.1 hi)]
      exact h.sound i
  · have hlt := lt_of_waits_moreSockets hw
    rw [sock_moreSockets hlt]
    exact ⟨hlt, rfl, rfl, id⟩
  · rw [sock_moreSockets hl.lt]
    exact hl.waits

theorem Inv.findNewSocket (h : Inv s) (hfree : ∀ i, s.freeSlot = some i → ∀ j, ¬ HangsOn s j i) :
    Inv s.findNewSocket.1 ∧ (s.findNewSocket.1.sock s.findNewSocket.2).waits = false := by
  rw [State.findNewSocket]
  cases hslot : s.freeSlot with
  | some i =>
    have hclosed : (s.sock i).state = .closed := by
      simpa using find?_some hslot
    refine ⟨h.set (quiet rfl ?_) (hfree i hslot), ?_⟩
    · simp [clearOperation, clearDns, hclosed]
    · rw [sock_set_self]
      rfl
  | none => exact ⟨h.moreSockets, by simp [State.moreSockets, freshSock, waits]⟩

/-- a socket that starts an operation -/
theorem startOperation_eq (s : State) (i : ℕ) {phase : Phase} (h : Phase.canTransition .init phase = true) :
    s.startOperation i phase = { s.set i { s.sock i with
      op := ⟨true, false, s.nextOpId, phase⟩, dns := ⟨[], 0, none, none, 0⟩ } with nextOpId := s.nextOpId + 1 } := by
  simp [State.startOperation, Sock.startOperation, Sock.clearOperation, Sock.clearDns, Sock.setPhase, h]

section

variable (h : Inv s)
include h

/-- a socket that can connect has nothing to write, so it may wait -/
theorem Inv.sound_waiting (hcan : s.canConnect i = true) (opId : ℕ) (dns : DnsPending) :
    ({ s.sock i with op := ⟨true, false, opId, .dnsResolving⟩, dns := dns } : Sock).Sound := by
  simp only [canConnect, Bool.and_eq_true, Bool.or_eq_true, decide_eq_true_eq] at hcan
  have hblocked := (h.sound i).unblocked (by tauto)
  refine ⟨fun _ => hblocked, fun _ => ⟨rfl, hblocked, ?_, ?_⟩⟩
  all_goals
    rintro hstate
    simp_all

theorem Inv.connectByName (hcan : s.canConnect i = true)
    (hfree : ∀ j, ¬ HangsOn s j i) (hnew : ∀ l, ¬ Leads s l s.newRequestId) (hostname : List Byte) (port : ℕ)
    (admitted : Bool) :
    Inv (s.connectByName i hostname port admitted) := by
  rw [State.connectByName, if_pos hcan, startOperation_eq s i rfl, State.queueDnsResolution]
  dsimp only
  have hfailed : Phase.isTerminal .failed = true := rfl
  by_cases hempty : hostname = []
  · rw [if_pos hempty, sock_set_self]
    have hsound := h.sound_waiting hcan s.nextOpId ⟨[], 0, none, none, 0⟩
    exact (h.set (hsound.complete hfailed) hfree).of_sock_eq (by simp [State.set]) rfl
  · rw [if_neg hempty]
    split
    · next j hfind =>
      have hj := find?_some hfind
      have hlt : j < s.maxSocks := mem_range.1 (mem_of_find?_eq_some hfind)
      simp only [State.isLeaderFor, Bool.and_eq_true, decide_eq_true_eq] at hj
      obtain ⟨⟨⟨⟨⟨hne, hwaits⟩, hleader⟩, -⟩, -⟩, -⟩ := hj
      rw [sock_set_of_ne _ hne] at hwaits hleader ⊢
      rw [sock_set_self]
      have hsound := h.sound_waiting hcan s.nextOpId
        ⟨hostname, port, some j, some (s.sock j).op.opId, (s.sock j).dns.requestId⟩
      exact (h.follow hsound hfree hne ⟨hlt, hwaits, hleader, rfl⟩ rfl rfl).of_sock_eq (by simp [State.set]) rfl
    · split_ifs
      · have hsound := h.sound_waiting hcan s.nextOpId
          ⟨hostname, port, some i, some s.nextOpId, s.newRequestId⟩
        exact (h.lead hsound hfree rfl rfl hnew).of_sock_eq (by simp [State.set, newRequestId]) rfl
      · have hsound := h.sound_waiting hcan s.nextOpId ⟨[], 0, none, none, 0⟩
        exact (h.set (hsound.complete hfailed) hfree).of_sock_eq (by simp [State.set, clearDns]) rfl

theorem Inv.connectByAddress (hcan : s.canConnect i = true)
    (hfree : ∀ j, ¬ HangsOn s j i) (net : Net) : Inv (s.connectByAddress i net) := by
  rw [State.connectByAddress, if_pos hcan, startOperation_eq s i rfl]
  have hquiet : ({ s.sock i with op := ⟨true, false, s.nextOpId, .connecting⟩, dns := ⟨[], 0, none, none, 0⟩ } :
    Sock).Quiet := quiet (by simp [waits]) (h.sound i).unblocked
  exact (h.set (hquiet.connect net) hfree).of_sock_eq (by simp [State.set]) rfl

theorem Inv.close
    (hfree : i < s.maxSocks ∧ (s.sock i).isOpen = true → ∀ j, ¬ HangsOn s j i) (callback runtimeOk : Bool) :
    Inv (s.close i callback runtimeOk) := by
  have hsound := h.sound i
  rw [State.close]
  split_ifs with hcan hcallback
  · exact (h.set (hsound.complete rfl) (hfree hcan)).of_sock_eq rfl rfl
  · exact h.set (hsound.closed runtimeOk) (hfree hcan)
  · exact h

theorem Inv.closeReturns (runtimeOk : Bool) : Inv (s.closeReturns runtimeOk) := by
  rw [State.closeReturns]
  split
  · next i rest _ =>
    refine (h.setState ((h.sound i).finishClose runtimeOk) ?_ ?_ ?_).of_sock_eq rfl rfl
    · simp only [finishClose]
      split_ifs <;> rfl
    · simp only [finishClose]
      split_ifs <;> rfl
    · rcases state_finishClose (s.sock i) runtimeOk with hs | hs <;> simp [isOpen, hs]
  · exact h

theorem Inv.writeSelect (i : ℕ) (write : Write) (runtimeOk : Bool) : Inv (s.writeSelect i write runtimeOk) := by
  unfold State.writeSelect
  by_cases hblocked : i < s.maxSocks ∧ (s.sock i).blocked = true
  · rw [if_pos hblocked]
    have hnot : (s.sock i).waits = false := by
      cases hwaits : (s.sock i).waits with
      | false => rfl
      | true => simp [((h.sound i).calm hwaits).2.1] at hblocked
    have hquiet : ({ s.sock i with blocked := false } : Sock).Quiet := quiet hnot fun _ => rfl
    have hfree := h.not_hangsOn hnot
    cases write with
    | again => exact h
    | error =>
      dsimp only
      split_ifs
      · exact h.set (hquiet.closeIf runtimeOk) hfree
      · exact h
    | drained =>
      dsimp only
      split_ifs
      · exact h.set (hquiet.closeIf runtimeOk) hfree
      · exact h.set (hquiet.1.complete rfl) hfree
  · rw [if_neg hblocked]
    exact h

/-- the result of a request goes to every open socket that waits for it -/
theorem Inv.handleDnsResult_waits (r : DnsResult) (net : ℕ → Net) (hi : i < s.maxSocks)
    (hopen : (s.sock i).isOpen = true) (hwaits : (s.sock i).waits = true)
    (hrequest : (s.sock i).dns.requestId = r.requestId) :
    ((s.handleDnsResult r net).sock i).waits = false := by
  obtain ⟨l, hleads, -, hop⟩ := h.led i hi hopen hwaits
  rw [hrequest] at hleads
  have hfound := h.found hleads
  rw [handleDnsResult]
  cases hfind : (range s.maxSocks).find? (s.leadsRequest r.requestId) with
  | none => exact absurd hfound (find?_eq_none.1 hfind l (mem_range.2 hleads.lt))
  | some leader =>
    -- the leader that is found is the one the socket hangs on
    have hlt : leader < s.maxSocks := mem_range.1 (mem_of_find?_eq_some hfind)
    have hleader := find?_some hfind
    simp only [leadsRequest, Bool.and_eq_true, decide_eq_true_eq] at hleader
    obtain ⟨⟨⟨hself, hid⟩, hw⟩, -⟩ := hleader
    have heq : leader = l := h.unique leader l r.requestId ⟨hlt, hw, hself, hid⟩ hleads
    subst heq
    dsimp only
    rw [if_pos ⟨hi, hrequest, hop⟩]
    exact (applyDnsResult_sound (h.sound i) r.timedOut r.success (net i)).2 hopen

/-- a result leaves a socket as it was, unless the socket is open and named by the request; then it does not wait -/
theorem Inv.handleDnsResult_sock (r : DnsResult) (net : ℕ → Net) (i : ℕ) : (s.handleDnsResult r net).sock i = s.sock i ∨
      ((s.handleDnsResult r net).sock i).Sound ∧ ((s.handleDnsResult r net).sock i).waits = false ∧
        (s.sock i).dns.requestId = r.requestId := by
  rw [handleDnsResult]
  split
  · exact .inl rfl
  · next leader _ =>
    dsimp only
    split_ifs with hnamed
    · obtain ⟨hsound, hquiet⟩ := applyDnsResult_sound (h.sound i) r.timedOut r.success (net i)
      cases hopen : (s.sock i).isOpen with
      | true => exact .inr ⟨hsound, hquiet hopen, hnamed.2.1⟩
      | false => exact .inl (applyDnsResult_of_not_open hopen r.timedOut r.success (net i))
    · exact .inl rfl

end

theorem Inv.handleDnsResult (h : Inv s) (r : DnsResult) (net : ℕ → Net) : Inv (s.handleDnsResult r net) := by
  have hmax : (s.handleDnsResult r net).maxSocks = s.maxSocks := by
    rw [State.handleDnsResult]
    split <;> rfl
  -- a socket that waits after the result is as it was before
  have hsame {i : ℕ} (hw : ((s.handleDnsResult r net).sock i).waits = true) :
      (s.handleDnsResult r net).sock i = s.sock i := by
    rcases h.handleDnsResult_sock r net i with heq | ⟨-, hquiet, -⟩
    · exact heq
    · rw [hw] at hquiet
      cases hquiet
  refine h.transfer (fun i => ?_) hmax.ge (fun j hlt hw => ?_) fun j hlt hopen hwaits l hl => ?_
  · rcases h.handleDnsResult_sock r net i with heq | ⟨hsound, -, -⟩
    · rw [heq]
      exact h.sound i
    · exact hsound
  · rw [hsame hw]
    exact ⟨hmax ▸ hlt, rfl, rfl, id⟩
  · -- its request is another one, so its leader is as it was as well
    rcases h.handleDnsResult_sock r net l with heq | ⟨-, -, hrequest⟩
    · rw [heq]
      exact hl.waits
    · have hstill := hwaits
      rw [hsame hwaits] at hopen hwaits
      rw [h.handleDnsResult_waits r net (hmax ▸ hlt) hopen hwaits (hl.requestId.symm.trans hrequest)] at hstill
      cases hstill

theorem Inv.step (h : Inv s) {st : Step} (hst : ¬ Strands s st) (hnew : reuses s st = false) :
    Inv (step s st) := by
  have hfree {i : ℕ} (hi : disturbs s st = some i) (j : ℕ) : ¬ HangsOn s j i := fun hj => hst ⟨i, hi, j, hj⟩
  cases st with
  | create ok =>
    obtain ⟨hnew, hquiet⟩ := h.findNewSocket fun i hi => hfree hi
    simp only [SocketDns.step]
    split_ifs
    · exact hnew.set (quiet hquiet fun _ => rfl) (hnew.not_hangsOn hquiet)
    · exact hnew
  | accept blocked ok =>
    obtain ⟨hnew, hquiet⟩ := h.findNewSocket fun i hi => hfree hi
    refine hnew.set (quiet hquiet ?_) (hnew.not_hangsOn hquiet)
    cases ok <;> simp
  | bind i | listen i =>
    simp only [SocketDns.step]
    split_ifs with hcan
    · have hsound := h.sound i
      refine h.setState ⟨fun _ => hsound.unblocked (by simp [hcan]), fun hw => ?_⟩ rfl rfl fun _ => by simp [isOpen, hcan]
      exact ⟨(hsound.calm hw).1, (hsound.calm hw).2.1, by simp, by simp⟩
    · exact h
  | connectByName i hostname port admitted =>
    cases hcan : s.canConnect i with
    | true =>
      refine h.connectByName hcan (hfree (by simp [disturbs, hcan])) (fun l hl => ?_) hostname port admitted
      have hfound := any_eq_false.1 hnew l (mem_range.2 hl.lt)
      exact hfound (h.found hl)
    | false => simpa [SocketDns.step, State.connectByName, hcan] using h
  | connectByAddress i net =>
    cases hcan : s.canConnect i with
    | true => exact h.connectByAddress hcan (hfree (by simp [disturbs, hcan])) net
    | false => simpa [SocketDns.step, State.connectByAddress, hcan] using h
  | close i callback runtimeOk =>
    exact h.close (fun hcan => hfree (by simp [disturbs, hcan])) callback runtimeOk
  | closeReturns runtimeOk => exact h.closeReturns runtimeOk
  | writeSelect i write runtimeOk => exact h.writeSelect i write runtimeOk
  | dnsResult r net => exact h.handleDnsResult r net

theorem Inv.run (h : Inv s) {steps : List Step} (hsteps : Considerate s steps) : Inv (run s steps) := by
  induction steps generalizing s with
  | nil => exact h
  | cons st rest ih => exact ih (h.step hsteps.1.1 hsteps.1.2) hsteps.2

/-- **Lookups are answered.** In every run in which no step disturbs a socket while another hangs on its lookup, or starts
a lookup with a number that is in use, when the result of a request arrives, every open socket that waits for this
request stops waiting. -/
theorem lookup_answered (steps : List Step) (hsteps : Considerate start steps) (r : DnsResult) (net : ℕ → Net) (i : ℕ)
    (hi : i < (run start steps).maxSocks) (hopen : ((run start steps).sock i).isOpen = true)
    (hwaits : ((run start steps).sock i).waits = true)
    (hrequest : ((run start steps).sock i).dns.requestId = r.requestId) :
    ((run start (steps ++ [.dnsResult r net])).sock i).waits = false := by
  rw [SocketDns.run, foldl_append]
  exact (inv_start.run hsteps).handleDnsResult_waits r net hi hopen hwaits hrequest

/-- two sockets look the same host up -/
def twoLookups : List Step :=
  [.create true, .create true, .connectByName 0 [104] 80 true, .connectByName 1 [104] 80 true]

theorem twoLookups_answered :
    ((run start (twoLookups ++ [.dnsResult ⟨201, false, true⟩ fun _ => ⟨true, true, true⟩])).sock 1).waits = false :=
  lookup_answered twoLookups (by decide) ⟨201, false, true⟩ _ 1 (by decide) (by decide) (by decide) (by decide)

/-- the leader is closed, and the other socket waits although the result has arrived -/
theorem follower_stranded :
    let s := run start (twoLookups ++ [.close 0 false true])
    (s.sock 1).isOpen = true ∧ (s.sock 1).waits = true ∧ (s.sock 1).dns.requestId = 201 ∧
      ((step s (.dnsResult ⟨201, false, true⟩ fun _ => ⟨true, true, true⟩)).sock 1).waits = true := by
  decide

end Lithos.Socket.SocketDns
