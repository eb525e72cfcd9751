/-
The address resolver (`addr_resolver.cpp`, without c-ares) and the part of `comm.c` that hands its results out.

The main thread admits requests to a queue of tasks: `resolve ()` with a callback, host names of sockets, and reverse
lookups for the cache of names. Two workers take tasks from the queue, look names up and put the results into a second
queue. The main thread takes the results from there and calls the requester, hands them to the sockets, or fills the
cache. Both queues are those of `Lithos.Async`, with room for 256 entries and neither waiting nor dropping; here they
are lists. Admissions are numbered (`ticket`), which the source does not do.

The steps of the main thread and of the workers come in any order. A worker that has finished counts its request out
before it queues the result.

Results:
* `requests_end_once`: every admitted request is in exactly one place, or has had exactly one outcome, as long as no
  result meets a full queue, and only then; and whatever is pending can be brought to an end.
* `inFlight_exact`: the counters of the requests in flight are exact, none is lost or counted twice.
* `result_lost`: with 256 results waiting, the answer to a `resolve ()` is gone.
-/
import Lithos.Lpc.Types

namespace Lithos.Driver.Resolver

open Lithos.Lpc List Option Function

/-! ## Requests -/

/-- a C string -/
abbrev Text := List Byte

/-- `AR_QUEUE_SIZE` -/
def queueSize : ℕ := 256
/-- `AR_GLOBAL_ADMISSION_CAP` -/
def globalAdmissionCap : ℤ := 64
/-- `RESOLVER_STR_MAX` -/
def strMax : ℕ := 128
/-- `RESOLVER_LOOKUP_REQUEST_CAPACITY` -/
def lookupRequestCapacity : ℕ := 200
/-- `SOCKET_DNS_REQUEST_ID_BASE` -/
def socketDnsRequestIdBase : ℕ := lookupRequestCapacity + 1

/-- `resolver_request_type_t` -/
inductive RequestType where
  | lookup
  | reverseCache
  | peerRefresh
deriving DecidableEq, Repr

/-- `resolver_admission_class_t` -/
inductive AdmissionClass where
  | forward
  | reverse
  | refresh
deriving DecidableEq, Repr

/-- `resolve_admission_class` -/
def resolveAdmissionClass : RequestType → AdmissionClass
  | .lookup => .forward
  | .peerRefresh => .refresh
  | .reverseCache => .reverse

/-- what a task and its result have in common, and the number of the admission -/
structure Request where
  type : RequestType
  requestId : ℕ
  query : Text
  cacheAddr : ℕ
  ticket : ℕ
deriving DecidableEq, Repr

/-- `resolver_task_t` -/
structure Task extends Request where
  deadline : ℕ
deriving DecidableEq, Repr

/-- `resolver_result_t` -/
structure Result extends Request where
  timedOut : Bool
  success : Bool
  result : Text
deriving DecidableEq, Repr

/-- `resolver_lookup_request_t`, an entry of `lookup_request_table`, with the number of the admission it is for -/
structure LookupRequest where
  name : Text
  callBack : Text
  obToCall : ℕ
  ticket : ℕ
deriving DecidableEq, Repr

/-! ## Admission -/

/-- the quotas of `addr_resolver_config_t` -/
structure Config where
  forwardQuota : ℤ
  reverseQuota : ℤ
  refreshQuota : ℤ
deriving DecidableEq, Repr

/-- the counters `in_flight` of `resolver_telemetry_t` -/
structure InFlight where
  total : ℤ
  forward : ℤ
  reverse : ℤ
  refresh : ℤ
deriving DecidableEq, Repr

/-- `add_class_inflight` -/
def InFlight.add (n : InFlight) (klass : AdmissionClass) (delta : ℤ) : InFlight where
  forward := max 0 (if klass = .forward then n.forward + delta else n.forward)
  reverse := max 0 (if klass = .reverse then n.reverse + delta else n.reverse)
  refresh := max 0 (if klass = .refresh then n.refresh + delta else n.refresh)
  total := max 0 (n.total + delta)

/-- what an `int` holds of a sum -/
def cInt (n : ℤ) : ℤ := n.bmod (2 ^ 32)

/-- `can_admit_class` -/
def canAdmitClass (config : Config) (n : InFlight) (klass : AdmissionClass) : Bool :=
  if globalAdmissionCap ≤ n.total then false
  else
    match klass with
    | .refresh => n.refresh < config.refreshQuota
    | .reverse => n.reverse < cInt (config.reverseQuota + max 0 (cInt (config.refreshQuota - n.refresh)))
    | .forward =>
      let reservedReverse := max 0 (cInt (config.reverseQuota - n.reverse))
      let reservedRefresh := max 0 (cInt (config.refreshQuota - n.refresh))
      n.forward < min config.forwardQuota (cInt (globalAdmissionCap - reservedReverse - reservedRefresh))

/-! ## The state -/

/-- a worker has nothing to do, works at a task, or has counted it out and holds the result -/
inductive Worker where
  | idle
  | busy (task : Task)
  | done (result : Result)
deriving DecidableEq, Repr

/-- what has become of a request in the hands of the main thread -/
inductive Outcome where
  /-- given to the sockets that wait for it -/
  | socket (timedOut success : Bool) (result : Text)
  /-- `addr_resolver_reverse_cache_add` -/
  | cached (name : Text)
  /-- no name for the cache -/
  | notCached
  /-- the callback of `resolve ()`, with the name and the number -/
  | called (request : LookupRequest) (name number : Option Text)
  /-- the object to call is destructed -/
  | gone (request : LookupRequest)
  /-- there is no such request -/
  | unknown
deriving DecidableEq, Repr

/-- a request and its outcome -/
structure Delivery where
  request : Request
  outcome : Outcome
deriving DecidableEq, Repr

/-- the resolver, the main thread as far as it deals with it, and a history of what has become of the requests -/
structure State where
  config : Config
  inFlight : InFlight
  taskQueue : List Task
  workers : Fin 2 → Worker
  resultQueue : List Result
  lookupRequestTable : ℕ → Option LookupRequest
  destructed : ℕ → Bool
  /-- the request whose callback runs -/
  calling : Option ℕ
  /-- how many requests have been admitted -/
  admitted : ℕ
  delivered : List Delivery
  /-- tasks taken out of a full queue for a request of the driver -/
  dropped : List Request
  /-- results that found the queue full -/
  overflown : List Request

open State

/-- after `addr_resolver_init` -/
def start (config : Config) : State where
  config := config
  inFlight := ⟨0, 0, 0, 0⟩
  taskQueue := []
  workers := fun _ => .idle
  resultQueue := []
  lookupRequestTable := fun _ => none
  destructed := fun _ => false
  calling := none
  admitted := 0
  delivered := []
  dropped := []
  overflown := []

/-! ## The main thread admits -/

namespace State

/-- `async_queue_enqueue` to the task queue and the counters; the admission gets the next number -/
def putTask (s : State) (task : Task) : State :=
  { s with
    taskQueue := s.taskQueue ++ [{ task with ticket := s.admitted }]
    inFlight := s.inFlight.add (resolveAdmissionClass task.type) 1
    admitted := s.admitted + 1 }

/-- `dequeue_oldest_task_for_driver_priority` -/
def dropOldest (s : State) (oldest : Task) (rest : List Task) : State :=
  { s with
    taskQueue := rest
    inFlight := s.inFlight.add (resolveAdmissionClass oldest.type) (-1)
    dropped := s.dropped ++ [oldest.toRequest] }

/-- `enqueue_task_with_admission`: the state after an admission, if there is one -/
def enqueueTaskWithAdmission (s : State) (task : Task) (driverInitiated : Bool) : Option State :=
  if canAdmitClass s.config s.inFlight (resolveAdmissionClass task.type) then
    if queueSize ≤ s.taskQueue.length then
      match driverInitiated, s.taskQueue with
      | true, oldest :: rest => some ((s.dropOldest oldest rest).putTask task)
      | _, _ => none
    else some (s.putTask task)
  else none

/-- `addr_resolver_enqueue_lookup`; requests of the driver are those of sockets -/
def enqueueLookup (s : State) (requestId : ℕ) (query : Text) (deadline : ℕ) : Option State :=
  s.enqueueTaskWithAdmission ⟨⟨.lookup, requestId, query.take (strMax - 1), 0, 0⟩, deadline⟩
    (decide (lookupRequestCapacity < requestId))

/-- `addr_resolver_reserve_lookup_request`: the first free entry -/
def freeEntry (s : State) : Option ℕ :=
  (range lookupRequestCapacity).find? fun index => (s.lookupRequestTable index).isNone

/-- an entry of the table set or cleared -/
def setEntry (s : State) (index : ℕ) (entry : Option LookupRequest) : State :=
  { s with lookupRequestTable := update s.lookupRequestTable index entry }

/-- `query_addr_number`: a request that is answered at once, or refused, leaves no trace here -/
def queryAddrNumber (s : State) (name callBack : Text) (ob : ℕ) (inCache : Bool) (deadline : ℕ) : State :=
  if strMax ≤ name.length ∨ inCache then s
  else
    match s.freeEntry with
    | none => s
    | some index =>
      let reserved := s.setEntry index (some ⟨name, callBack, ob, s.admitted⟩)
      match reserved.enqueueLookup (index + 1) name deadline with
      | some admitted => admitted
      | none => reserved.setEntry index none

/-- `addr_resolver_enqueue_reverse` and `addr_resolver_enqueue_refresh` -/
def enqueueReverse (s : State) (type : RequestType) (cacheAddr : ℕ) (ip : Text) (deadline : ℕ) : State :=
  (s.enqueueTaskWithAdmission ⟨⟨type, 0, ip.take (strMax - 1), cacheAddr, 0⟩, deadline⟩ false).getD s

/-! ## A worker -/

/-- what a worker learns while it works at a task: the time, three times, and what the name service says -/
structure Answer where
  first : ℕ
  second : ℕ
  third : ℕ
  host : Option Text
deriving DecidableEq, Repr

/-- the body of `resolver_worker_main`, up to `record_task_completion` -/
def resolve (task : Task) (answer : Answer) : Result :=
  let result : Result := ⟨task.toRequest, false, false, []⟩
  if task.deadline ≤ answer.first then { result with timedOut := true }
  else
    let result :=
      if task.deadline ≤ answer.second then { result with timedOut := true }
      else
        match answer.host with
        | some host => { result with success := true, result := host.take (strMax - 1) }
        | none => result
    if !result.timedOut ∧ task.deadline ≤ answer.third then { result with timedOut := true, success := false }
    else result

/-- `async_queue_dequeue` of an idle worker -/
def takeTask (s : State) (w : Fin 2) : State :=
  match s.workers w, s.taskQueue with
  | .idle, task :: rest => { s with workers := update s.workers w (.busy task), taskQueue := rest }
  | _, _ => s

/-- the lookup and `record_task_completion` -/
def finishTask (s : State) (w : Fin 2) (answer : Answer) : State :=
  match s.workers w with
  | .busy task =>
    { s with
      workers := update s.workers w (.done (resolve task answer))
      inFlight := s.inFlight.add (resolveAdmissionClass task.type) (-1) }
  | _ => s

/-- `async_queue_enqueue` to the result queue, which is not looked after when the queue is full -/
def postResult (s : State) (w : Fin 2) : State :=
  match s.workers w with
  | .done result =>
    let idle := { s with workers := update s.workers w .idle }
    if s.resultQueue.length < queueSize then { idle with resultQueue := s.resultQueue ++ [result] }
    else { idle with overflown := s.overflown ++ [result.toRequest] }
  | _ => s

/-! ## The main thread hands out -/

/-- the arguments of the callback of `resolve ()`: the name and the number that were found, zero for what was not -/
def callbackArguments (request : LookupRequest) (result : Result) : Option Text × Option Text :=
  let number : Text := if result.success && !result.timedOut then result.result.take (strMax - 1) else [48]
  let isAddress := request.name.head?.any fun c => 48 ≤ c.toNat && c.toNat ≤ 57
  let theName := if isAddress then number else request.name
  let theNumber := if isAddress then request.name else number
  (if theName = [48] then none else some theName, if number = [48] then none else some theNumber)

/-- the request `r` has come to its end -/
def finished (s : State) (r : Request) (outcome : Outcome) : State :=
  { s with delivered := s.delivered ++ [⟨r, outcome⟩] }

/-- a turn of the loop of `process_addr_resolver_completions`, up to the callback -/
def dispatch (s : State) (r : Result) : State :=
  match r.type with
  | .lookup =>
    if socketDnsRequestIdBase ≤ r.requestId then s.finished r.toRequest (.socket r.timedOut r.success r.result)
    else if r.requestId = 0 then s.finished r.toRequest .unknown
    else
      match s.lookupRequestTable (r.requestId - 1) with
      | none => s.finished r.toRequest .unknown
      | some request =>
        if s.destructed request.obToCall then
          (s.finished r.toRequest (.gone request)).setEntry (r.requestId - 1) none
        else
          let arguments := callbackArguments request r
          { s.finished r.toRequest (.called request arguments.1 arguments.2) with calling := some r.requestId }
  | _ =>
    s.finished r.toRequest (if r.success && !r.timedOut && r.result ≠ [48] then .cached r.result else .notCached)

/-- `addr_resolver_dequeue_result` and what follows; while a callback runs the loop waits for it -/
def deliver (s : State) : State :=
  match s.calling, s.resultQueue with
  | none, r :: rest => { s with resultQueue := rest }.dispatch r
  | _, _ => s

/-- the callback returns: `addr_resolver_release_lookup_request` -/
def finishCall (s : State) : State :=
  match s.calling with
  | some requestId => { s with calling := none }.setEntry (requestId - 1) none
  | none => s

end State

/-! ## Runs -/

open State

/-- a step of the main thread or of a worker -/
inductive Step where
  | configure (config : Config)
  | destruct (ob : ℕ)
  | resolve (name callBack : Text) (ob : ℕ) (inCache : Bool) (deadline : ℕ)
  | socketLookup (n : ℕ) (hostname : Text) (deadline : ℕ)
  | reverse (cacheAddr : ℕ) (ip : Text) (deadline : ℕ)
  | refresh (cacheAddr : ℕ) (ip : Text) (deadline : ℕ)
  | takeTask (w : Fin 2)
  | finishTask (w : Fin 2) (answer : Answer)
  | postResult (w : Fin 2)
  | deliver
  | finishCall

def step (s : State) : Step → State
  | .configure config => { s with config := config }
  | .destruct ob => { s with destructed := update s.destructed ob true }
  | .resolve name callBack ob inCache deadline => s.queryAddrNumber name callBack ob inCache deadline
  | .socketLookup n hostname deadline => (s.enqueueLookup (socketDnsRequestIdBase + n) hostname deadline).getD s
  | .reverse cacheAddr ip deadline => s.enqueueReverse .reverseCache cacheAddr ip deadline
  | .refresh cacheAddr ip deadline => s.enqueueReverse .peerRefresh cacheAddr ip deadline
  | .takeTask w => s.takeTask w
  | .finishTask w answer => s.finishTask w answer
  | .postResult w => s.postResult w
  | .deliver => s.deliver
  | .finishCall => s.finishCall

/-- a run from the state `s` -/
def run (s : State) (steps : List Step) : State := steps.foldl step s

theorem run_append (s : State) (steps more : List Step) : run s (steps ++ more) = run (run s steps) more :=
  foldl_append

/-! ## Where the requests are -/

/-- the request in the hands of a worker -/
def Worker.request : Worker → Option Request
  | .idle => none
  | .busy task => some task.toRequest
  | .done result => some result.toRequest

/-- the requests in the hands of the workers -/
def inHands (workers : Fin 2 → Worker) : List Request :=
  (workers 0).request.toList ++ (workers 1).request.toList

/-- the requests that have no outcome yet -/
def State.pending (s : State) : List Request :=
  s.taskQueue.map Task.toRequest ++ inHands s.workers ++ s.resultQueue.map Result.toRequest

/-- every admitted request is pending or has an outcome, and it is there once -/
def Accounted (s : State) : Prop :=
  ((s.pending ++ s.delivered.map Delivery.request).map Request.ticket).Perm (range s.admitted)

/-- a request with a callback has led to the call of its requester, unless that is destructed -/
def Reported (d : Delivery) : Prop :=
  d.request.type = .lookup → d.request.requestId < socketDnsRequestIdBase →
    ∃ request : LookupRequest, request.ticket = d.request.ticket ∧
      ((∃ name number, d.outcome = .called request name number) ∨ d.outcome = .gone request)

/-- admitted requests end once, and the requester is told -/
structure EndsOnce (s : State) : Prop where
  accounted : Accounted s
  reported : ∀ d ∈ s.delivered, Reported d

/-- a result that is posted finds room -/
def HasRoom (s : State) : Step → Prop
  | .postResult w => (∃ result, s.workers w = .done result) → s.resultQueue.length < queueSize
  | _ => True

/-- every result of a run finds room -/
def Roomy : State → List Step → Prop
  | _, [] => True
  | s, st :: rest => HasRoom s st ∧ Roomy (step s st) rest

/-! ## What a step keeps -/

/-- a request that `resolve ()` has made holds its entry of the table -/
def Owns (s : State) (r : Request) : Prop :=
  r.type = .lookup → r.requestId < socketDnsRequestIdBase →
    r.requestId ≠ 0 ∧ ∃ request, s.lookupRequestTable (r.requestId - 1) = some request ∧ request.ticket = r.ticket

/-- a counter of the requests in flight, of a class or of all -/
def InFlight.of (n : InFlight) : Option AdmissionClass → ℤ
  | some .forward => n.forward
  | some .reverse => n.reverse
  | some .refresh => n.refresh
  | none => n.total

/-- the counter is one of this request -/
def Request.counts (k : Option AdmissionClass) (r : Request) : Bool := k.all (· = resolveAdmissionClass r.type)

/-- whether a worker is at a task that is counted, as a number -/
def Worker.busyCount (k : Option AdmissionClass) : Worker → ℕ
  | .busy task => (task.counts k).toNat
  | _ => 0

/-- summed up over both workers -/
def overWorkers (f : Worker → ℕ) (workers : Fin 2 → Worker) : ℕ := f (workers 0) + f (workers 1)

/-- what holds in every state of a run. The counters of requests in flight are exact, so the task queue is never full and
nothing is dropped for a request of the driver. -/
structure Inv (s : State) : Prop where
  conserved : ((s.pending ++ s.delivered.map Delivery.request ++ s.overflown).map Request.ticket).Perm
    (range s.admitted)
  counted : ∀ k, s.inFlight.of k = s.taskQueue.countP (·.counts k) + overWorkers (Worker.busyCount k) s.workers
  kept : s.dropped = []
  capped : s.inFlight.total ≤ globalAdmissionCap
  owned : ∀ r ∈ s.pending, Owns s r
  calling : ∀ requestId, s.calling = some requestId → ∃ request, s.lookupRequestTable (requestId - 1) = some request ∧
    ∃ d ∈ s.delivered, d.request.ticket = request.ticket
  reported : ∀ d ∈ s.delivered, Reported d

theorem inv_start (config : Config) : Inv (start config) where
  conserved := by simp [start, pending, inHands, Worker.request]
  counted k := by cases k with
    | none => rfl
    | some k => cases k <;> rfl
  kept := rfl
  capped := by simp [start, globalAdmissionCap]
  owned := by simp [start, pending, inHands, Worker.request]
  calling := nofun
  reported := by simp [start]

variable (workers : Fin 2 → Worker)

/-- a worker exchanges what it has -/
theorem overWorkers_update (f : Worker → ℕ) (w : Fin 2) (worker : Worker) :
    overWorkers f (update workers w worker) + f (workers w) = overWorkers f workers + f worker := by
  match w with
  | 0 | 1 =>
    simp [overWorkers]
    omega

/-- what a worker has at hand changes places with what it has afterwards -/
theorem count_inHands_update (w : Fin 2) (worker : Worker) (r : Request) :
    (inHands (update workers w worker)).count r + (workers w).request.toList.count r =
      (inHands workers).count r + worker.request.toList.count r := by
  simp only [inHands, count_append]
  exact overWorkers_update workers (·.request.toList.count r) w worker

theorem InFlight.of_add (n : InFlight) (r : Request) (delta : ℤ) (k : Option AdmissionClass) :
    (n.add (resolveAdmissionClass r.type) delta).of k = max 0 (n.of k + (r.counts k).toNat * delta) := by
  rw [Request.counts]
  generalize resolveAdmissionClass r.type = klass
  cases k with
  | none => simp [add, of]
  | some k => cases k <;> cases klass <;> simp [add, of]

/-- an entry nobody needs: no pending request has its number, and no callback runs for it -/
structure Unused (s : State) (index : ℕ) : Prop where
  pending : ∀ r ∈ s.pending, r.type = .lookup → r.requestId < socketDnsRequestIdBase → r.requestId - 1 ≠ index
  calling : ∀ requestId, s.calling = some requestId → requestId - 1 ≠ index

variable {s : State} {index : ℕ} {task : Task}

theorem Inv.unused_of_none (h : Inv s) (hnone : s.lookupRequestTable index = none) : Unused s index where
  pending r hr htype hid := by
    rintro rfl
    obtain ⟨-, request, hsome, -⟩ := h.owned r hr htype hid
    simp [hnone] at hsome
  calling requestId hcalling := by
    rintro rfl
    obtain ⟨request, hsome, -⟩ := h.calling requestId hcalling
    simp [hnone] at hsome

theorem Inv.setEntry (h : Inv s) (hunused : Unused s index) (entry : Option LookupRequest) :
    Inv (s.setEntry index entry) where
  conserved := h.conserved
  counted := h.counted
  kept := h.kept
  capped := h.capped
  owned r hr htype hid := by
    obtain ⟨hne, request, hsome, hticket⟩ := h.owned r hr htype hid
    refine ⟨hne, request, ?_, hticket⟩
    simpa [State.setEntry, hunused.pending r hr htype hid] using hsome
  calling requestId hcalling := by
    obtain ⟨request, hsome, hd⟩ := h.calling requestId hcalling
    refine ⟨request, ?_, hd⟩
    simpa [State.setEntry, hunused.calling requestId hcalling] using hsome
  reported := h.reported

theorem Inv.putTask (h : Inv s) (hroom : s.inFlight.total < globalAdmissionCap)
    (howns : Owns s { task.toRequest with ticket := s.admitted }) : Inv (s.putTask task) where
  conserved := by
    have hperm := h.conserved.append_right [s.admitted]
    rw [← range_succ] at hperm
    refine List.Perm.trans (perm_iff_count.2 fun t => ?_) hperm
    simp only [State.pending, State.putTask, map_append, count_append, map_cons, map_nil]
    omega
  counted k := by
    have hcounted := h.counted k
    simp only [State.putTask, InFlight.of_add, countP_append, countP_singleton]
    change max 0 (_ + ((task.counts k).toNat : ℤ) * 1) = ((_ + if task.counts k then 1 else 0 : ℕ) : ℤ) + _
    cases task.counts k <;> simp <;> omega
  kept := h.kept
  capped := by
    have hcounted : s.inFlight.total = _ := h.counted none
    simp only [State.putTask, InFlight.add]
    omega
  owned r hr := by
    have hcases : r ∈ s.pending ∨ r = { task.toRequest with ticket := s.admitted } := by
      simp only [State.pending, State.putTask, map_append, mem_append, map_cons, map_nil, mem_singleton] at hr ⊢
      tauto
    rcases hcases with hold | rfl
    · exact h.owned r hold
    · exact howns
  calling := h.calling
  reported := h.reported

/-- the task queue is never full: what is in it is in flight -/
theorem Inv.length_taskQueue_lt (h : Inv s) : s.taskQueue.length < queueSize := by
  have hcounted : s.inFlight.total = _ := h.counted none
  have hcapped := h.capped
  simp only [Request.counts, Option.all_none, countP_true, globalAdmissionCap] at hcounted hcapped
  simp only [queueSize]
  omega

variable {driverInitiated : Bool} {s' : State} {d : Delivery}

theorem Inv.enqueueTaskWithAdmission (h : Inv s) (howns : Owns s { task.toRequest with ticket := s.admitted })
    (hs : s.enqueueTaskWithAdmission task driverInitiated = some s') : Inv s' := by
  have hlt := h.length_taskQueue_lt
  simp only [State.enqueueTaskWithAdmission, not_le.2 hlt, if_false] at hs
  split_ifs at hs with hadmit
  cases hs
  refine h.putTask ?_ howns
  by_contra hfull
  simp [canAdmitClass, not_lt.1 hfull] at hadmit

theorem Inv.queryAddrNumber (h : Inv s) (name callBack : Text) (ob : ℕ) (inCache : Bool) (deadline : ℕ) :
    Inv (s.queryAddrNumber name callBack ob inCache deadline) := by
  rw [State.queryAddrNumber]
  split_ifs
  · exact h
  cases hfree : s.freeEntry with
  | none => exact h
  | some index =>
    have hnone : s.lookupRequestTable index = none := by
      simpa using find?_some hfree
    have hunused := h.unused_of_none hnone
    have hreserved := h.setEntry hunused (some ⟨name, callBack, ob, s.admitted⟩)
    dsimp only
    split
    · next admitted hadmit =>
      refine hreserved.enqueueTaskWithAdmission (fun _ _ => ⟨by simp, ?_⟩) hadmit
      exact ⟨⟨name, callBack, ob, s.admitted⟩, by simp [State.setEntry], rfl⟩
    · exact hreserved.setEntry ⟨hunused.pending, hunused.calling⟩ none

/-- an admission of a request without a callback -/
theorem Inv.getD_enqueue (h : Inv s) (hother : task.type = .lookup → socketDnsRequestIdBase ≤ task.requestId) :
    Inv ((s.enqueueTaskWithAdmission task driverInitiated).getD s) := by
  cases hs : s.enqueueTaskWithAdmission task driverInitiated with
  | none => exact h
  | some s' => exact h.enqueueTaskWithAdmission (fun htype hid => absurd (hother htype) (not_le.2 hid)) hs

theorem resolve_toRequest (task : Task) (answer : Answer) : (resolve task answer).toRequest = task.toRequest := by
  simp only [resolve]
  split_ifs <;> first | rfl | (cases answer.host <;> rfl)

section

variable (h : Inv s)
include h

/-- a worker exchanges what it has; no request becomes pending, and each has one place -/
theorem Inv.exchange {w : Fin 2} {old new : Worker} (hw : s.workers w = old) {tasks : List Task}
    {results : List Result} {lost : List Request} {n : InFlight}
    (hcount : ∀ r, (tasks.map Task.toRequest).count r + new.request.toList.count r +
        (results.map Result.toRequest).count r + lost.count r =
      (s.taskQueue.map Task.toRequest).count r + old.request.toList.count r +
        (s.resultQueue.map Result.toRequest).count r + s.overflown.count r)
    (hlost : ∀ r, s.overflown.count r ≤ lost.count r)
    (hflight : ∀ k, n.of k + s.taskQueue.countP (·.counts k) + old.busyCount k =
      s.inFlight.of k + tasks.countP (·.counts k) + new.busyCount k) (hle : n.total ≤ s.inFlight.total) :
    Inv { s with
      inFlight := n, taskQueue := tasks, workers := update s.workers w new, resultQueue := results, overflown := lost } := by
  subst hw
  have hhands := count_inHands_update s.workers w new
  refine ⟨?_, fun k => ?_, h.kept, hle.trans h.capped, fun r hr => h.owned r ?_, h.calling, h.reported⟩
  · refine (List.Perm.map _ (perm_iff_count.2 fun r => ?_)).trans h.conserved
    have hplaces := hcount r
    have hhand := hhands r
    simp only [pending, count_append]
    omega
  · have hbusy := overWorkers_update s.workers (Worker.busyCount k) w new
    have hcounted := h.counted k
    have hchange := hflight k
    dsimp only
    omega
  · have hplaces := hcount r
    have hhand := hhands r
    have hmore := hlost r
    rw [← count_pos_iff] at hr ⊢
    simp only [pending, count_append] at hr ⊢
    omega

/-- what is queued or worked at is in flight -/
theorem Inv.counts_le (ht : task ∈ s.taskQueue ∨ ∃ w, s.workers w = .busy task) (k : Option AdmissionClass) :
    (task.counts k).toNat ≤ s.inFlight.of k := by
  rw [h.counted]
  rcases ht with ht | ⟨w, hw⟩
  · cases hk : task.counts k with
    | false => exact Int.natCast_nonneg _
    | true =>
      have hpos := countP_pos_iff (p := (·.counts k)).2 ⟨task, ht, hk⟩
      rw [Bool.toNat_true]
      omega
  · have hbusy := overWorkers_update s.workers (Worker.busyCount k) w .idle
    rw [hw] at hbusy
    change _ + (task.counts k).toNat = _ + 0 at hbusy
    omega

theorem Inv.takeTask (w : Fin 2) : Inv (s.takeTask w) := by
  rw [State.takeTask]
  split
  · next task rest hw hq =>
    refine h.exchange hw (fun r => ?_) (fun _ => le_rfl) (fun k => ?_) le_rfl
    · simp [hq, Worker.request, count_cons]
    · simp only [hq, Worker.busyCount, countP_cons]
      cases task.counts k <;> simp [add_assoc]
  · exact h

theorem Inv.finishTask (w : Fin 2) (answer : Answer) : Inv (s.finishTask w answer) := by
  rw [State.finishTask]
  split
  · next task hw =>
    have hpos := h.counts_le (.inr ⟨w, hw⟩)
    refine h.exchange hw (fun r => ?_) (fun _ => le_rfl) (fun k => ?_) ?_
    · simp [Worker.request, resolve_toRequest]
    · have := hpos k
      rw [InFlight.of_add]
      simp only [Worker.busyCount]
      omega
    · have : _ ≤ s.inFlight.total := hpos none
      simp only [InFlight.add]
      omega
  · exact h

theorem Inv.postResult (w : Fin 2) : Inv (s.postResult w) := by
  rw [State.postResult]
  split
  · next result hw =>
    dsimp only
    split_ifs
    · refine h.exchange hw (fun r => ?_) (fun _ => le_rfl) (fun _ => rfl) le_rfl
      simp [Worker.request]
      omega
    · -- the request goes from the hands of the worker to what has been lost
      refine h.exchange hw (fun r => ?_) (fun r => by simp) (fun _ => rfl) le_rfl
      simp [Worker.request]
      omega
  · exact h

/-- a request that is pending is not delivered as well -/
theorem Inv.ticket_ne {r : Request} (hr : r ∈ s.pending) (hd : d ∈ s.delivered) : r.ticket ≠ d.request.ticket := by
  have hnodup := h.conserved.nodup_iff.2 nodup_range
  rw [map_append, map_append] at hnodup
  have hdisjoint := disjoint_of_nodup_append (nodup_append.1 hnodup).1
  intro heq
  apply hdisjoint (mem_map_of_mem hr)
  rw [heq]
  exact mem_map_of_mem (mem_map_of_mem hd)

/-- the entry of a request that has been delivered is not needed any more -/
theorem Inv.unused_of_delivered (hcalling : s.calling = none) {request : LookupRequest}
    (hentry : s.lookupRequestTable index = some request) (hd : d ∈ s.delivered)
    (hticket : d.request.ticket = request.ticket) : Unused s index where
  pending r hr htype hid := by
    rintro rfl
    obtain ⟨-, request', hentry', hticket'⟩ := h.owned r hr htype hid
    rw [hentry, some.injEq] at hentry'
    subst hentry'
    exact h.ticket_ne hr hd (hticket'.symm.trans hticket.symm)
  calling requestId hsome := by simp [hcalling] at hsome

theorem Inv.finishCall : Inv s.finishCall := by
  rw [State.finishCall]
  cases hcalling : s.calling with
  | none => exact h
  | some requestId =>
    obtain ⟨request, hentry, d, hd, hticket⟩ := h.calling requestId hcalling
    have hidle : Inv { s with calling := none } :=
      ⟨h.conserved, h.counted, h.kept, h.capped, h.owned, nofun, h.reported⟩
    exact hidle.setEntry (hidle.unused_of_delivered rfl hentry hd hticket) none

/-- a request gets its outcome -/
theorem Inv.finished {r : Result} {rest : List Result} (hq : s.resultQueue = r :: rest)
    (outcome : Outcome) (hreported : Reported ⟨r.toRequest, outcome⟩) :
    Inv ({ s with resultQueue := rest }.finished r.toRequest outcome) where
  conserved := by
    refine List.Perm.trans (perm_iff_count.2 fun t => ?_) h.conserved
    simp only [State.pending, State.finished, hq, map_append, map_cons, map_nil, count_append, count_cons, count_nil]
    omega
  counted := h.counted
  kept := h.kept
  capped := h.capped
  owned q hr := by
    refine h.owned q ?_
    simp only [State.pending, State.finished, hq, map_cons, mem_append, mem_cons] at hr ⊢
    tauto
  calling requestId hcalling := by
    obtain ⟨request, hentry, d, hd, hticket⟩ := h.calling requestId hcalling
    exact ⟨request, hentry, d, mem_append_left _ hd, hticket⟩
  reported := forall_mem_append.2 ⟨h.reported, forall_mem_singleton.2 hreported⟩

theorem Inv.deliver : Inv s.deliver := by
  rw [State.deliver]
  split
  · next r rest hcalling hq =>
    have hpending : r.toRequest ∈ s.pending := by simp [pending, hq]
    rw [dispatch]
    split
    · next htype =>
      split_ifs with hsocket hzero
      · exact h.finished hq _ fun _ hid => absurd hid (not_lt.2 hsocket)
      · exact absurd hzero (h.owned _ hpending htype (not_le.1 hsocket)).1
      · obtain ⟨-, request, hentry, hticket⟩ := h.owned _ hpending htype (not_le.1 hsocket)
        simp only [hentry]
        split_ifs with hgone
        · -- the requester is destructed, its entry is cleared at once
          have hend := h.finished hq (.gone request) fun _ _ => ⟨request, hticket, .inr rfl⟩
          have hlast := mem_append_right s.delivered (mem_singleton_self ⟨r.toRequest, .gone request⟩)
          exact hend.setEntry (hend.unused_of_delivered hcalling hentry hlast hticket.symm) _
        · have hend := h.finished hq (.called request (callbackArguments request r).1 (callbackArguments request r).2)
            fun _ _ => ⟨request, hticket, .inl ⟨_, _, rfl⟩⟩
          refine ⟨hend.conserved, hend.counted, hend.kept, hend.capped, hend.owned, ?_, hend.reported⟩
          intro requestId hid
          cases hid
          exact ⟨request, hentry, _, mem_append_right _ (mem_singleton_self _), hticket.symm⟩
    · next htype => exact h.finished hq _ fun hlookup _ => absurd hlookup htype
  · exact h

theorem Inv.step (st : Step) : Inv (step s st) := by
  cases st with
  | configure config | destruct ob => exact ⟨h.conserved, h.counted, h.kept, h.capped, h.owned, h.calling, h.reported⟩
  | resolve name callBack ob inCache deadline => exact h.queryAddrNumber name callBack ob inCache deadline
  | socketLookup n hostname deadline => exact h.getD_enqueue fun _ => le_self_add
  | reverse cacheAddr ip deadline | refresh cacheAddr ip deadline => exact h.getD_enqueue nofun
  | takeTask w => exact h.takeTask w
  | finishTask w answer => exact h.finishTask w answer
  | postResult w => exact h.postResult w
  | deliver => exact h.deliver
  | finishCall => exact h.finishCall

theorem Inv.run (steps : List Step) : Inv (run s steps) := by
  induction steps generalizing s with
  | nil => exact h
  | cons st rest ih => exact ih (h.step st)

end

/-! ## Lost results -/

theorem enqueueTaskWithAdmission_overflown
    (h : s.enqueueTaskWithAdmission task driverInitiated = some s') : s'.overflown = s.overflown := by
  simp only [enqueueTaskWithAdmission] at h
  split_ifs at h
  · split at h <;> cases h
    rfl
  · cases h
    rfl

theorem getD_enqueue_overflown (s : State) (task : Task) (driverInitiated : Bool) :
    ((s.enqueueTaskWithAdmission task driverInitiated).getD s).overflown = s.overflown := by
  cases h : s.enqueueTaskWithAdmission task driverInitiated with
  | none => rfl
  | some s' => exact enqueueTaskWithAdmission_overflown h

theorem queryAddrNumber_overflown (s : State) (name callBack : Text) (ob : ℕ) (inCache : Bool) (deadline : ℕ) :
    (s.queryAddrNumber name callBack ob inCache deadline).overflown = s.overflown := by
  rw [queryAddrNumber]
  split_ifs
  · rfl
  split
  · rfl
  · dsimp only
    split
    · next admitted hadmit => exact (enqueueTaskWithAdmission_overflown hadmit :)
    · rfl

/-- handing out changes the table and what is called; the rest is history -/
theorem dispatch_eq (s : State) (r : Result) : ∃ outcome table calling,
    s.dispatch r = { s.finished r.toRequest outcome with lookupRequestTable := table, calling := calling } ∧
      (calling = s.calling ∨ calling = some r.requestId) := by
  rw [dispatch]
  repeat' split
  all_goals first | exact ⟨_, _, _, rfl, .inl rfl⟩ | exact ⟨_, _, _, rfl, .inr rfl⟩

/-- a step loses a result exactly if it finds no room -/
theorem step_overflown (s : State) (st : Step) : (HasRoom s st → (step s st).overflown = s.overflown) ∧
      (¬ HasRoom s st → ∃ r, (step s st).overflown = s.overflown ++ [r]) := by
  have hkept {P Q R : Prop} (hroom : P) (h : Q) : (P → Q) ∧ (¬ P → R) := ⟨fun _ => h, fun hno => absurd hroom hno⟩
  cases st with
  | configure config | destruct ob => exact hkept trivial rfl
  | resolve name callBack ob inCache deadline =>
    exact hkept trivial (queryAddrNumber_overflown s name callBack ob inCache deadline)
  | socketLookup n hostname deadline | reverse cacheAddr ip deadline | refresh cacheAddr ip deadline =>
    exact hkept trivial (getD_enqueue_overflown s _ _)
  | takeTask w | finishTask w answer | finishCall =>
    refine hkept trivial ?_
    simp only [step, takeTask, finishTask, finishCall]
    split <;> rfl
  | postResult w =>
    simp only [step, postResult, HasRoom]
    split
    · next result hw =>
      by_cases hroom : s.resultQueue.length < queueSize
      · simp [hroom]
      · simp [hroom, hw]
    · next hidle => exact ⟨fun _ => rfl, fun h => absurd (fun ⟨result, hw⟩ => absurd hw (hidle result)) h⟩
  | deliver =>
    refine hkept trivial ?_
    simp only [step, deliver]
    split
    · next r rest _ _ =>
      obtain ⟨outcome, table, calling, heq, -⟩ := dispatch_eq { s with resultQueue := rest } r
      rw [heq]
      rfl
    · rfl

/-- a run loses no result exactly if every result finds room -/
theorem run_overflown (s : State) (steps : List Step) :
    (run s steps).overflown = [] ↔ s.overflown = [] ∧ Roomy s steps := by
  induction steps generalizing s with
  | nil => simp [run, Roomy]
  | cons st rest ih =>
    obtain ⟨hkeeps, hloses⟩ := step_overflown s st
    have hrun : run s (st :: rest) = run (step s st) rest := rfl
    rw [hrun, ih, Roomy]
    by_cases hroom : HasRoom s st
    · simp [hkeeps hroom, hroom]
    · obtain ⟨r, hr⟩ := hloses hroom
      simp [hr, hroom]

theorem Inv.accounted_iff (h : Inv s) : Accounted s ↔ s.overflown = [] := by
  have hconserved := h.conserved
  constructor
  · intro haccounted
    have hlength := hconserved.length_eq.trans haccounted.length_eq.symm
    simp only [length_map, length_append] at hlength
    exact length_eq_zero_iff.1 (by omega)
  · intro hnone
    rwa [hnone, append_nil] at hconserved

/-! ## Bringing requests to an end -/

/-- how many steps the requests with a worker still need at most -/
def Worker.work : Worker → ℕ
  | .idle => 0
  | .busy _ => 4
  | .done _ => 3

/-- how many steps the pending requests still need at most -/
def State.work (s : State) : ℕ :=
  5 * s.taskQueue.length + overWorkers Worker.work s.workers + 2 * s.resultQueue.length + s.calling.toList.length

theorem work_dispatch (hcalling : s.calling = none) (r : Result) :
    (s.dispatch r).work ≤ s.work + 1 ∧ (s.dispatch r).admitted = s.admitted := by
  obtain ⟨outcome, table, calling, heq, hcall⟩ := dispatch_eq s r
  rw [heq]
  refine ⟨?_, rfl⟩
  rcases hcall with rfl | rfl <;> simp [work, finished, hcalling]

/-- as long as a request is pending or a callback runs, somebody can do a step that brings the end nearer -/
theorem exists_step (hwork : s.work ≠ 0) :
    ∃ st, HasRoom s st ∧ (step s st).work < s.work ∧ (step s st).admitted = s.admitted := by
  cases hcalling : s.calling with
  | some requestId =>
    refine ⟨.finishCall, trivial, ?_, ?_⟩
    · simp [step, finishCall, setEntry, work, hcalling]
    · simp [step, finishCall, setEntry, hcalling]
  | none =>
    cases hresults : s.resultQueue with
    | cons r rest =>
      have hstep : step s .deliver = { s with resultQueue := rest }.dispatch r := by
        simp [step, deliver, hcalling, hresults]
      obtain ⟨hle, hadmitted⟩ := work_dispatch (s := { s with resultQueue := rest }) hcalling r
      refine ⟨.deliver, trivial, ?_, hstep ▸ hadmitted⟩
      rw [hstep]
      simp only [work, hresults, length_cons] at hle ⊢
      omega
    | nil =>
      by_cases hdone : ∃ w result, s.workers w = .done result
      · obtain ⟨w, result, hw⟩ := hdone
        have hupdate := overWorkers_update s.workers Worker.work w .idle
        rw [hw] at hupdate
        simp only [Worker.work] at hupdate
        refine ⟨.postResult w, fun _ => by simp [hresults, queueSize], ?_, ?_⟩
        · simp only [step, postResult, hw, hresults, work]
          simp [queueSize]
          omega
        · simp [step, postResult, hw, hresults, queueSize]
      · by_cases hbusy : ∃ w task, s.workers w = .busy task
        · obtain ⟨w, task, hw⟩ := hbusy
          have hupdate := overWorkers_update s.workers Worker.work w (.done (resolve task ⟨0, 0, 0, none⟩))
          rw [hw] at hupdate
          simp only [Worker.work] at hupdate
          refine ⟨.finishTask w ⟨0, 0, 0, none⟩, trivial, ?_, ?_⟩
          · simp only [step, finishTask, hw, work]
            omega
          · simp [step, finishTask, hw]
        · have hidle (w : Fin 2) : s.workers w = .idle := by
            cases hw : s.workers w with
            | idle => rfl
            | busy task => exact absurd ⟨w, task, hw⟩ hbusy
            | done result => exact absurd ⟨w, result, hw⟩ hdone
          cases htasks : s.taskQueue with
          | nil => simp [work, overWorkers, hidle, htasks, hresults, hcalling, Worker.work] at hwork
          | cons task rest =>
            have hupdate := overWorkers_update s.workers Worker.work 0 (.busy task)
            simp only [Worker.work] at hupdate
            refine ⟨.takeTask 0, trivial, ?_, ?_⟩
            · simp only [step, takeTask, hidle, htasks, work, length_cons]
              omega
            · simp [step, takeTask, hidle, htasks]

theorem pending_of_work (h : s.work = 0) : s.pending = [] := by
  simp only [work, overWorkers, Nat.add_eq_zero_iff, Nat.mul_eq_zero, length_eq_zero_iff] at h
  obtain ⟨⟨⟨htasks, h0, h1⟩, hresults⟩, -⟩ := h
  have hidle {worker : Worker} (hw : worker.work = 0) : worker.request = none := by
    cases worker with
    | idle => rfl
    | busy task | done result => cases hw
  simp only [pending, inHands, hidle h0, hidle h1]
  simp_all

/-- whatever is pending can be brought to an end, without losing a result -/
theorem exists_drain (s : State) :
    ∃ more, Roomy s more ∧ (run s more).pending = [] ∧ (run s more).admitted = s.admitted := by
  induction hn : s.work using Nat.strong_induction_on generalizing s with
  | _ n ih =>
    by_cases hwork : s.work = 0
    · exact ⟨[], trivial, pending_of_work hwork, rfl⟩
    · obtain ⟨st, hroom, hless, hadmitted⟩ := exists_step hwork
      obtain ⟨more, hroomy, hpending, hadmitted'⟩ := ih _ (hn ▸ hless) _ rfl
      exact ⟨st :: more, ⟨hroom, hroomy⟩, hpending, hadmitted'.trans hadmitted⟩

/-! ## Every request ends -/

/-- **Resolver requests end exactly once.** After any run, every admitted request is pending in one place or has had one
outcome, told to its requester, exactly if no result has met a full result queue; and what is pending can be brought to
an end. -/
theorem requests_end_once (config : Config) (steps : List Step) :
    (EndsOnce (run (start config) steps) ↔ Roomy (start config) steps) ∧
      ∃ more, Roomy (run (start config) steps) more ∧ (run (start config) (steps ++ more)).pending = [] ∧
        (run (start config) (steps ++ more)).admitted = (run (start config) steps).admitted := by
  have hinv := (inv_start config).run steps
  have hiff : EndsOnce (run (start config) steps) ↔ Accounted (run (start config) steps) :=
    ⟨EndsOnce.accounted, fun h => ⟨h, hinv.reported⟩⟩
  refine ⟨?_, ?_⟩
  · rw [hiff, hinv.accounted_iff, run_overflown]
    simp [start]
  · obtain ⟨more, hroomy, hpending, hadmitted⟩ := exists_drain (run (start config) steps)
    refine ⟨more, hroomy, ?_⟩
    rw [run_append]
    exact ⟨hpending, hadmitted⟩

/-- **Quotas decide.** Whatever the threads do, the task queue is never full: no task is dropped, and the quotas alone
decide on a request. -/
theorem admission_by_quota (config : Config) (steps : List Step) : let s := run (start config) steps
    s.dropped = [] ∧ s.enqueueTaskWithAdmission task driverInitiated =
      if canAdmitClass s.config s.inFlight (resolveAdmissionClass task.type) then some (s.putTask task) else none := by
  have h := (inv_start config).run steps
  exact ⟨h.kept, by simp only [State.enqueueTaskWithAdmission, not_le.2 h.length_taskQueue_lt, if_false]⟩

/-! ## The counters -/

/-- a request that a worker has brought to an end -/
def Worker.ended : Worker → List Request
  | .done result => [result.toRequest]
  | _ => []

/-- the requests that are completed, failed, timed out or dropped -/
def State.ended (s : State) : List Request :=
  (s.workers 0).ended ++ (s.workers 1).ended ++ s.resultQueue.map Result.toRequest ++
    s.delivered.map Delivery.request ++ s.overflown ++ s.dropped

/-- the requests that were admitted -/
def State.requests (s : State) : List Request :=
  s.pending ++ s.delivered.map Delivery.request ++ s.overflown ++ s.dropped

theorem Worker.countP_request (worker : Worker) (k : Option AdmissionClass) : worker.request.toList.countP (·.counts k) =
    worker.busyCount k + worker.ended.countP (·.counts k) := by
  cases worker with
  | idle => rfl
  | busy task => cases hk : task.counts k <;> simp [request, busyCount, ended, hk]
  | done result => simp [request, busyCount, ended]

/-- **The counters are exact.** After any run each counter is the number of requests admitted less those that have ended,
and the total is within the cap. Neither an admission nor the end of a task meets the lower limit of a counter. -/
theorem inFlight_exact (config : Config) (steps : List Step) :
    let s := run (start config) steps
    (s.requests.map Request.ticket).Perm (range s.admitted) ∧
      (∀ k, s.inFlight.of k = s.requests.countP (·.counts k) - s.ended.countP (·.counts k)) ∧
      s.inFlight.total ≤ globalAdmissionCap ∧
      (∀ (task : Task) k, (s.inFlight.add (resolveAdmissionClass task.type) 1).of k = s.inFlight.of k + (task.counts k).toNat) ∧
      ∀ task, task ∈ s.taskQueue ∨ (∃ w, s.workers w = .busy task) → ∀ k,
        (s.inFlight.add (resolveAdmissionClass task.type) (-1)).of k = s.inFlight.of k - (task.counts k).toNat := by
  intro s
  have h : Inv s := (inv_start config).run steps
  refine ⟨?_, fun k => ?_, h.capped, fun task k => ?_, fun task ht k => ?_⟩
  · rw [State.requests, h.kept, append_nil]
    exact h.conserved
  · rw [h.counted, State.requests, State.ended, State.pending, inHands]
    simp only [countP_append, Worker.countP_request, countP_map, overWorkers, Function.comp_def]
    omega
  · have hcounted := h.counted k
    rw [InFlight.of_add]
    omega
  · have := h.counts_le ht k
    rw [InFlight.of_add]
    omega

/-- 256 requests of the address cache and a `resolve ()`, each looked up before the next, and nothing handed out -/
def flood : List Step :=
  let round (st : Step) : List Step := [st, .takeTask 0, .finishTask 0 ⟨0, 0, 0, none⟩, .postResult 0]
  (replicate 256 (round (.reverse 1 [49] 30))).flatten ++ round (.resolve [97] [99] 7 false 30)

theorem result_lost :
    let s := run (start ⟨10, 4, 2⟩) flood
    s.admitted = 257 ∧ s.delivered = [] ∧ s.pending.all (·.ticket < 256) = true ∧
      (s.lookupRequestTable 0).map LookupRequest.ticket = some 256 := by
  decide +kernel

end Lithos.Driver.Resolver
