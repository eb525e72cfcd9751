/-
Closing an LPC socket (`socket_close`), with a close callback that may do anything with the sockets of the driver.

A descriptor is a number from a counter: a socket is known by its descriptor, also when its slot of `lpc_socks` is used
again. A block knows the socket it was allocated for. `closed` and `freed` list what `close` and `FREE` were called for.
`Act` is what LPC code can do with sockets while a callback runs; it may lead to another close that calls back.
`socket_close` looks at the slot again after the callback, without asking whether it still holds the socket, and it
leaves the pointers to the buffers in the slot when it has freed them.

Results:
* `closes_once_iff`: from every sound table and for every behaviour of the callback, `socket_close` closes and releases
  what the socket had exactly once and leaves every other socket alone, exactly if, when the callback returns, the slot
  still holds the socket, with no data to send, or the callback has closed the socket and left nothing in the slot. A
  socket with data to send is put in FLUSHING for the event loop, which passes such sockets over.
* `run_wf`: every table of a running driver is sound.
* `closed_again_by_callback`: a callback that closes the socket again, and one that also creates another.
-/
import Lithos.Socket.SocketDns

namespace Lithos.Socket.SocketClose

open List Option Function

open Lithos.Socket.SocketDns (SocketState)

/-! ## Model -/

/-- a block of memory: the descriptor of the socket it was allocated for, and its number -/
structure Block where
  owner : ℕ
  serial : ℕ
deriving DecidableEq, Repr

/-- a slot of `lpc_socks`; there is no descriptor for INVALID_SOCKET_FD, and no buffer for NULL -/
structure Sock where
  state : SocketState
  blocked : Bool
  fd : Option ℕ
  rBuf : Option Block
  wBuf : Option Block
deriving DecidableEq, Repr

/-- a slot as `more_lpc_sockets` makes it -/
def Sock.free : Sock := ⟨.closed, false, none, none, none⟩

/-- the buffers a slot points to -/
def Sock.bufs (k : Sock) : List Block := k.rBuf.toList ++ k.wBuf.toList

/-- `lpc_socks`, of which the first `size` slots are in use, and what was closed and freed -/
structure Table where
  sock : ℕ → Sock
  size : ℕ
  nextFd : ℕ
  nextBlock : ℕ
  closed : List ℕ
  freed : List Block

namespace Table

def setSock (t : Table) (i : ℕ) (k : Sock) : Table := { t with sock := update t.sock i k }

/-- the descriptor is closed and the buffers are freed; the pointers to them stay -/
def closeNow (t : Table) (i : ℕ) : Table :=
  { t.setSock i { t.sock i with state := .closed, fd := none } with
    closed := t.closed ++ (t.sock i).fd.toList
    freed := t.freed ++ (t.sock i).bufs }

/-- `socket_close` after its callback; `runtimeOk` is the answer of `modify_socket_runtime` -/
def finish (t : Table) (i : ℕ) (runtimeOk : Bool) : Table :=
  if (t.sock i).blocked then t.setSock i { t.sock i with state := .flushing, blocked := runtimeOk }
  else t.closeNow i

/-- `socket_close` is not refused; `allowed`: SC_FORCE, or the owner calls; `final` is SC_FINAL_CLOSE -/
def mayClose (t : Table) (i : ℕ) (allowed final : Bool) : Bool :=
  i < t.size && (t.sock i).state ≠ .closed && ((t.sock i).state ≠ .flushing || final) && allowed

/-- `find_new_socket`; a slot that `more_lpc_sockets` adds is free -/
def findNewSocket (t : Table) : ℕ := ((range t.size).find? fun i => (t.sock i).state = .closed).getD t.size

/-- the table with room for one more socket -/
def grow (t : Table) : Table := if t.findNewSocket < t.size then t else { t with size := t.size + 10 }

/-- a new socket, in UNBOUND from `socket_create` and in DATA_XFER from `socket_accept`; `registered` is the answer of
`register_socket_runtime` -/
def create (t : Table) (state : SocketState) (blocked registered : Bool) : Table :=
  let i := t.findNewSocket
  if registered then { t.grow.setSock i ⟨state, blocked, some t.nextFd, none, none⟩ with nextFd := t.nextFd + 1 }
  else
    { t.grow.setSock i ⟨.closed, blocked, none, none, none⟩ with
      nextFd := t.nextFd + 1, closed := t.closed ++ [t.nextFd] }

/-- a `socket_write` that is sent in part -/
def writePart (t : Table) (i fd : ℕ) : Table :=
  { t.setSock i { t.sock i with blocked := true, wBuf := some ⟨fd, t.nextBlock⟩ } with nextBlock := t.nextBlock + 1 }

end Table

/-- what a callback can do: create or accept a socket, take an open one to another state (bind, listen, connect), write
to one, close one, and write to one whose `modify_socket_runtime` fails, which closes it with a callback of its own -/
inductive Act where
  | create (state : SocketState) (blocked registered : Bool)
  | advance (i : ℕ) (state : SocketState) (blocked : Bool)
  | write (i : ℕ)
  | close (i : ℕ) (allowed runtimeOk : Bool)
  | drop (i : ℕ) (callback : List Act) (runtimeOk : Bool)

/-- neither closed nor about to be -/
def isOpen (state : SocketState) : Bool := state ≠ .closed && state ≠ .flushing

mutual

def act : Act → Table → Table
  | .create state blocked registered, t => if isOpen state then t.create state blocked registered else t
  | .advance i state blocked, t =>
    if ((t.sock i).state = .unbound || (t.sock i).state = .bound) && isOpen state then
      t.setSock i { t.sock i with state := state, blocked := blocked }
    else t
  | .write i, t =>
    match (t.sock i).fd with
    | some fd => if (t.sock i).state = .dataXfer && !(t.sock i).blocked then t.writePart i fd else t
    | none => t
  | .close i allowed runtimeOk, t => if t.mayClose i allowed false then t.finish i runtimeOk else t
  | .drop i callback runtimeOk, t =>
    if t.mayClose i true false then (acts callback t).finish i runtimeOk else t

def acts : List Act → Table → Table
  | [], t => t
  | a :: l, t => acts l (act a t)

end

/-- `socket_close`, if it is not refused: the callback, and the rest -/
def socketClose (t : Table) (i : ℕ) (callback : List Act) (runtimeOk : Bool) : Table :=
  (acts callback t).finish i runtimeOk

/-! ## Sound tables -/

/-- a slot of a sound table: its descriptor is not closed, the buffers of a socket are its own and not freed, and what a
slot without a descriptor still points to was freed -/
structure Sock.Ok (t : Table) (k : Sock) : Prop where
  invalid : k.state = .closed → k.fd = none
  fresh : ∀ f, k.fd = some f → f < t.nextFd ∧ f ∉ t.closed
  serial_lt : ∀ b ∈ k.bufs, b.serial < t.nextBlock
  nodup : k.fd ≠ none → k.bufs.Nodup
  own : ∀ f, k.fd = some f → ∀ b ∈ k.bufs, b.owner = f ∧ b ∉ t.freed
  dangling : k.fd = none → ∀ b ∈ k.bufs, b.owner ∈ t.closed ∧ b ∈ t.freed
  once : ∀ f, k.fd = some f → ∀ b : Block, b.owner = f → t.freed.count b ≤ 1
  idle : k.fd ≠ none → k.state ≠ .flushing → k.state ≠ .dataXfer ∨ k.blocked = false → k.wBuf = none

/-- every slot is sound, a descriptor is in one slot, and no descriptor is closed twice -/
structure Table.WF (t : Table) : Prop where
  ok : ∀ i, (t.sock i).Ok t
  beyond : ∀ i, t.size ≤ i → t.sock i = Sock.free
  inj : ∀ i j f, (t.sock i).fd = some f → (t.sock j).fd = some f → i = j
  closed_lt : ∀ f ∈ t.closed, f < t.nextFd
  closed_nodup : t.closed.Nodup
  freed_lt : ∀ b ∈ t.freed, b.serial < t.nextBlock ∧ b.owner < t.nextFd

/-- `t'` has closed `c` and freed `d` since `t` -/
structure Table.Later (t t' : Table) (c : List ℕ) (d : List Block) : Prop where
  nextFd_le : t.nextFd ≤ t'.nextFd
  nextBlock_le : t.nextBlock ≤ t'.nextBlock
  closed_eq : t'.closed = t.closed ++ c
  freed_eq : t'.freed = t.freed ++ d

variable {t : Table} {k : Sock}

/-- a slot stays sound while nothing of its socket is closed or freed -/
theorem Sock.Ok.mono {t' : Table} {c : List ℕ} {d : List Block} (h : k.Ok t) (hl : t.Later t' c d)
    (hspare : ∀ f, k.fd = some f → f ∉ c ∧ ∀ b ∈ d, b.owner ≠ f) : k.Ok t' := by
  have hfreed : ∀ f, k.fd = some f → ∀ b : Block, b.owner = f → b ∉ d :=
    fun f hf b hb hm => (hspare f hf).2 b hm hb
  constructor
  case invalid => exact h.invalid
  case fresh =>
    intro f hf
    obtain ⟨hlt, hnot⟩ := h.fresh f hf
    rw [hl.closed_eq, mem_append]
    exact ⟨hlt.trans_le hl.nextFd_le, not_or.2 ⟨hnot, (hspare f hf).1⟩⟩
  case serial_lt => exact fun b hb => (h.serial_lt b hb).trans_le hl.nextBlock_le
  case nodup => exact h.nodup
  case own =>
    intro f hf b hb
    obtain ⟨howner, hnot⟩ := h.own f hf b hb
    rw [hl.freed_eq, mem_append]
    exact ⟨howner, not_or.2 ⟨hnot, hfreed f hf b howner⟩⟩
  case dangling =>
    intro hn b hb
    obtain ⟨hc, hf⟩ := h.dangling hn b hb
    rw [hl.closed_eq, hl.freed_eq]
    exact ⟨mem_append_left _ hc, mem_append_left _ hf⟩
  case once =>
    intro f hf b hb
    rw [hl.freed_eq, count_append, count_eq_zero_of_not_mem (hfreed f hf b hb)]
    exact h.once f hf b hb
  case idle => exact h.idle

/-- a slot without a descriptor -/
theorem Sock.Ok.of_none (hfd : k.fd = none)
    (hbufs : ∀ b ∈ k.bufs, b.serial < t.nextBlock ∧ b.owner ∈ t.closed ∧ b ∈ t.freed) : k.Ok t where
  invalid _ := hfd
  fresh _ hf := nomatch hfd.symm.trans hf
  serial_lt b hb := (hbufs b hb).1
  nodup hn := absurd hfd hn
  own _ hf := nomatch hfd.symm.trans hf
  dangling _ b hb := (hbufs b hb).2
  once _ hf := nomatch hfd.symm.trans hf
  idle hn := absurd hfd hn

variable {t' t'' : Table} {i j f : ℕ} {c : List ℕ} {d : List Block}

namespace Table

/-- a slot that holds a socket is in the table -/
theorem WF.lt_size (h : t.WF) (hf : (t.sock i).fd = some f) : i < t.size := by
  by_contra hle
  rw [h.beyond i (Nat.not_lt.1 hle)] at hf
  cases hf

/-- **One slot changes** to `k`, which is sound afterwards, while `c` is closed and `d` is freed, which belong to no other
socket -/
structure Changes (t t' : Table) (i : ℕ) (k : Sock) (c : List ℕ) (d : List Block) : Prop where
  later : t.Later t' c d
  sock : t'.sock = update t.sock i k
  size_le : t.size ≤ t'.size
  lt : i < t'.size
  ok : k.Ok t'
  inj : ∀ f, k.fd = some f → ∀ j, j ≠ i → (t.sock j).fd ≠ some f
  spare : ∀ j, j ≠ i → ∀ f, (t.sock j).fd = some f → f ∉ c ∧ ∀ b ∈ d, b.owner ≠ f
  closed : c.Nodup ∧ ∀ f ∈ c, f < t'.nextFd ∧ f ∉ t.closed
  freed : ∀ b ∈ d, b.serial < t'.nextBlock ∧ b.owner < t'.nextFd

theorem WF.update (h : t.WF) (u : t.Changes t' i k c d) : t'.WF := by
  have hself : t'.sock i = k := by rw [u.sock, update_self]
  have hother : ∀ j, j ≠ i → t'.sock j = t.sock j := fun j hj => by rw [u.sock, update_of_ne hj]
  constructor
  case ok =>
    intro j
    by_cases hj : j = i
    · rw [hj, hself]
      exact u.ok
    · rw [hother j hj]
      exact (h.ok j).mono u.later (u.spare j hj)
  case beyond =>
    intro j hj
    rw [hother j (fun heq => absurd u.lt (Nat.not_lt.2 (heq ▸ hj)))]
    exact h.beyond j (u.size_le.trans hj)
  case inj =>
    intro a b f ha hb
    by_cases hai : a = i <;> by_cases hbi : b = i
    · exact hai.trans hbi.symm
    · rw [hai, hself] at ha
      rw [hother b hbi] at hb
      exact absurd hb (u.inj f ha b hbi)
    · rw [hbi, hself] at hb
      rw [hother a hai] at ha
      exact absurd ha (u.inj f hb a hai)
    · rw [hother a hai] at ha
      rw [hother b hbi] at hb
      exact h.inj a b f ha hb
  case closed_lt =>
    intro f hf
    rw [u.later.closed_eq, mem_append] at hf
    rcases hf with hf | hf
    · exact (h.closed_lt f hf).trans_le u.later.nextFd_le
    · exact (u.closed.2 f hf).1
  case closed_nodup =>
    rw [u.later.closed_eq, nodup_append]
    refine ⟨h.closed_nodup, u.closed.1, ?_⟩
    intro a ha b hb heq
    exact (u.closed.2 b hb).2 (heq ▸ ha)
  case freed_lt =>
    intro b hb
    rw [u.later.freed_eq, mem_append] at hb
    rcases hb with hb | hb
    · obtain ⟨hs, ho⟩ := h.freed_lt b hb
      exact ⟨hs.trans_le u.later.nextBlock_le, ho.trans_le u.later.nextFd_le⟩
    · exact u.freed b hb

/-- what a slot points to belongs to the socket in it, or to one that is closed -/
theorem WF.owner (h : t.WF) {b : Block} (hb : b ∈ (t.sock i).bufs) :
    (t.sock i).fd = some b.owner ∨ (t.sock i).fd = none ∧ b.owner ∈ t.closed := by
  cases hfd : (t.sock i).fd with
  | none => exact .inr ⟨rfl, ((h.ok i).dangling hfd b hb).1⟩
  | some f => exact .inl (congrArg some ((h.ok i).own f hfd b hb).1.symm)

/-- a socket gets the blocks `new`, and frees `d` and forgets it -/
theorem WF.exchange (h : t.WF) (new : List Block) (hi : i < t.size) (hl : t.Later t' [] d)
    (hsock : t'.sock = Function.update t.sock i k) (hsize : t'.size = t.size) (hfd : k.fd = (t.sock i).fd)
    (hclosed : k.state = .closed → k.fd = none) (hbufs : (k.bufs ++ d).Perm (new ++ (t.sock i).bufs)) (hnodup : new.Nodup)
    (hnew : ∀ b ∈ new, (t.sock i).fd = some b.owner ∧ t.nextBlock ≤ b.serial ∧ b.serial < t'.nextBlock)
    (hd : (t.sock i).fd = none → d = [])
    (hidle : k.fd ≠ none → k.state ≠ .flushing → k.state ≠ .dataXfer ∨ k.blocked = false → k.wBuf = none) :
    t.Changes t' i k [] d := by
  have hold := h.ok i
  have hmem : ∀ b ∈ k.bufs ++ d, b ∈ new ∨ b ∈ (t.sock i).bufs := fun b hb => mem_append.1 (hbufs.mem_iff.1 hb)
  have hserial : ∀ b ∈ k.bufs ++ d, b.serial < t'.nextBlock := by
    intro b hb
    rcases hmem b hb with hb | hb
    · exact (hnew b hb).2.2
    · exact (hold.serial_lt b hb).trans_le hl.nextBlock_le
  have hown : ∀ f, (t.sock i).fd = some f → ∀ b ∈ k.bufs ++ d, b.owner = f ∧ b ∉ t.freed := by
    intro f hf b hb
    rcases hmem b hb with hb | hb
    · obtain ⟨ho, hle, -⟩ := hnew b hb
      exact ⟨some.inj (ho.symm.trans hf), fun hm => absurd (h.freed_lt b hm).1 hle.not_gt⟩
    · exact hold.own f hf b hb
  have hparts : (t.sock i).fd ≠ none → (k.bufs ++ d).Nodup := by
    refine fun hn => hbufs.nodup_iff.2 (nodup_append.2 ⟨hnodup, hold.nodup hn, ?_⟩)
    rintro b hb _ hb' rfl
    exact absurd (hold.serial_lt b hb') (hnew b hb).2.1.not_gt
  have hfreed : ∀ b ∈ d, (t.sock i).fd = some b.owner := by
    intro b hb
    cases hf : (t.sock i).fd with
    | none => exact absurd (hd hf ▸ hb) not_mem_nil
    | some f => rw [(hown f hf b (mem_append_right _ hb)).1]
  refine ⟨hl, hsock, hsize.ge, hi.trans_eq hsize.symm, ?_, ?_, ?_, ⟨nodup_nil, nofun⟩, ?_⟩
  · refine ⟨hclosed, ?_, fun b hb => hserial b (mem_append_left _ hb), ?_, ?_, ?_, ?_, hidle⟩
    · intro g hg
      obtain ⟨hlt, hnot⟩ := hold.fresh g (hfd ▸ hg)
      rw [hl.closed_eq, append_nil]
      exact ⟨hlt.trans_le hl.nextFd_le, hnot⟩
    · exact fun hn => (nodup_append.1 (hparts (hfd ▸ hn))).1
    · intro g hg b hb
      obtain ⟨howner, hnot⟩ := hown g (hfd ▸ hg) b (mem_append_left _ hb)
      have hdisj := (nodup_append.1 (hparts (by simp [← hfd, hg]))).2.2
      rw [hl.freed_eq, mem_append]
      exact ⟨howner, not_or.2 ⟨hnot, fun hd => hdisj b hb b hd rfl⟩⟩
    · intro hn b hb
      rw [hl.closed_eq, hl.freed_eq]
      rcases hmem b (mem_append_left _ hb) with hb | hb
      · exact nomatch hn.symm.trans (hfd.trans (hnew b hb).1)
      · exact (hold.dangling (hfd ▸ hn) b hb).imp (mem_append_left _) (mem_append_left _)
    · intro g hg b hb
      rw [hl.freed_eq, count_append]
      by_cases hd : b ∈ d
      · rw [count_eq_zero_of_not_mem (hown g (hfd ▸ hg) b (mem_append_right _ hd)).2, Nat.zero_add]
        exact nodup_iff_count_le_one.1 (nodup_append.1 (hparts (by simp [← hfd, hg]))).2.1 b
      · rw [count_eq_zero_of_not_mem hd]
        exact hold.once g (hfd ▸ hg) b hb
  · exact fun g hg j hj hg' => hj (h.inj j i g hg' (hfd ▸ hg))
  · exact fun j hj g hg => ⟨not_mem_nil, fun b hb heq => hj (h.inj j i g hg (heq ▸ hfreed b hb))⟩
  · exact fun b hb => ⟨hserial b (mem_append_right _ hb), (hold.fresh _ (hfreed b hb)).1.trans_le hl.nextFd_le⟩

theorem WF.fd_findNewSocket (h : t.WF) : (t.sock t.findNewSocket).fd = none := by
  unfold findNewSocket
  cases hfind : (range t.size).find? fun i => (t.sock i).state = .closed with
  | none =>
    rw [getD_none, h.beyond t.size le_rfl]
    rfl
  | some a =>
    have hstate := find?_some hfind
    exact (h.ok a).invalid (of_decide_eq_true hstate)

theorem findNewSocket_lt (t : Table) : t.findNewSocket < t.grow.size := by
  unfold grow
  split_ifs with hlt
  · exact hlt
  · have hle : t.findNewSocket ≤ t.size := by
      unfold findNewSocket
      cases hfind : (range t.size).find? fun i => (t.sock i).state = .closed with
      | none => exact le_refl _
      | some a => exact (mem_range.1 (mem_of_find?_eq_some hfind)).le
    exact lt_of_le_of_lt hle (Nat.lt_add_of_pos_right (by decide))

/-- more slots, and nothing else -/
theorem grow_eq (t : Table) : ∃ n, t.size ≤ n ∧ t.grow = { t with size := n } := by
  unfold grow
  split
  · exact ⟨t.size, le_refl _, rfl⟩
  · exact ⟨t.size + 10, le_self_add, rfl⟩

end Table

/-! ## What a callback can do -/

/-- what has become of the sockets of `t`: each is still in its slot with all the buffers it had, or it was closed, and
the buffers were freed -/
structure Reach (t t' : Table) : Prop where
  wf : t'.WF
  size_le : t.size ≤ t'.size
  closed_sub : ∀ f ∈ t.closed, f ∈ t'.closed
  freed_sub : t.freed <+: t'.freed
  fate : ∀ i f, (t.sock i).fd = some f →
    ((t'.sock i).fd = some f ∧ ∀ b ∈ (t.sock i).bufs, b ∈ (t'.sock i).bufs) ∨
      (f ∈ t'.closed ∧ ∀ b ∈ (t.sock i).bufs, b ∈ t'.freed)

namespace Reach

theorem refl (h : t.WF) : Reach t t :=
  ⟨h, le_refl _, fun _ hf => hf, prefix_rfl, fun _ _ hf => .inl ⟨hf, fun _ hb => hb⟩⟩

theorem trans (h : Reach t t') (h' : Reach t' t'') : Reach t t'' := by
  refine ⟨h'.wf, h.size_le.trans h'.size_le, fun f hf => h'.closed_sub f (h.closed_sub f hf),
    h.freed_sub.trans h'.freed_sub, ?_⟩
  intro i f hf
  rcases h.fate i f hf with ⟨hfd, hbufs⟩ | ⟨hclosed, hfreed⟩
  · rcases h'.fate i f hfd with ⟨hfd', hbufs'⟩ | ⟨hclosed', hfreed'⟩
    · exact .inl ⟨hfd', fun b hb => hbufs' b (hbufs b hb)⟩
    · exact .inr ⟨hclosed', fun b hb => hfreed' b (hbufs b hb)⟩
  · exact .inr ⟨h'.closed_sub f hclosed, fun b hb => h'.freed_sub.subset (hfreed b hb)⟩

/-- one slot changes, and what its socket had stays in it or is given up -/
theorem update (h : t.WF) (u : t.Changes t' i k c d)
    (hi : ∀ f, (t.sock i).fd = some f → (k.fd = some f ∧ ∀ b ∈ (t.sock i).bufs, b ∈ k.bufs) ∨
      (f ∈ t'.closed ∧ ∀ b ∈ (t.sock i).bufs, b ∈ t'.freed)) : Reach t t' := by
  refine ⟨h.update u, u.size_le, fun f hf => u.later.closed_eq ▸ mem_append_left _ hf,
    u.later.freed_eq ▸ prefix_append _ _, ?_⟩
  intro j f hf
  by_cases hj : j = i
  · rw [u.sock, hj, update_self]
    exact hi f (hj ▸ hf)
  · rw [u.sock, update_of_ne hj]
    exact .inl ⟨hf, fun _ hb => hb⟩

theorem ite {P : Prop} [Decidable P] (h : t.WF) (ht : P → Reach t t') : Reach t (if P then t' else t) := by
  split_ifs with hp
  · exact ht hp
  · exact refl h

/-- a socket allocates a buffer -/
theorem allocate {f : ℕ} (h : t.WF) (hf : (t.sock i).fd = some f) (hfd : k.fd = (t.sock i).fd)
    (hstate : k.state = (t.sock i).state) (hbufs : k.bufs.Perm (⟨f, t.nextBlock⟩ :: (t.sock i).bufs))
    (hidle : k.state ≠ .flushing → k.state ≠ .dataXfer ∨ k.blocked = false → k.wBuf = none) :
    Reach t { t.setSock i k with nextBlock := t.nextBlock + 1 } := by
  refine update h (h.exchange [⟨f, t.nextBlock⟩] (h.lt_size hf)
    ⟨le_refl _, Nat.le_succ _, (append_nil _).symm, (append_nil _).symm⟩ rfl rfl hfd ?_ (by rwa [append_nil])
    (nodup_singleton _) ?_ (fun _ => rfl) fun _ => hidle) fun g hg => .inl ⟨hfd.trans hg, fun b hb => ?_⟩
  · rw [hfd, hstate]
    exact (h.ok i).invalid
  · simpa using hf
  · exact hbufs.mem_iff.2 (.tail _ hb)

/-- a slot is changed, but not its descriptor and its buffers -/
theorem setSock (h : t.WF) (hi : i < t.size) (hclosed : k.state = .closed → k.fd = none)
    (hfd : k.fd = (t.sock i).fd) (hr : k.rBuf = (t.sock i).rBuf) (hw : k.wBuf = (t.sock i).wBuf)
    (hidle : k.fd ≠ none → k.state ≠ .flushing → k.state ≠ .dataXfer ∨ k.blocked = false → k.wBuf = none) :
    Reach t (t.setSock i k) := by
  have hbufs : k.bufs = (t.sock i).bufs := by rw [Sock.bufs, Sock.bufs, hr, hw]
  exact update h (h.exchange [] hi ⟨le_refl _, le_refl _, (append_nil _).symm, (append_nil _).symm⟩ rfl rfl hfd hclosed
    (by rw [append_nil, hbufs, nil_append]) nodup_nil nofun (fun _ => rfl) hidle) fun f hf =>
    .inl ⟨hfd.trans hf, fun b hb => hbufs ▸ hb⟩

theorem closeNow (h : t.WF) (hi : i < t.size) : Reach t (t.closeNow i) := by
  have hl : t.Later (t.closeNow i) (t.sock i).fd.toList (t.sock i).bufs := ⟨le_refl _, le_refl _, rfl, rfl⟩
  have hfd : ∀ f, f ∈ (t.sock i).fd.toList ↔ (t.sock i).fd = some f := fun f => mem_toList
  have howner : ∀ b ∈ (t.sock i).bufs, b.owner ∈ (t.closeNow i).closed := by
    intro b hb
    rw [hl.closed_eq, mem_append, hfd]
    exact (h.owner hb).symm.imp And.right id
  refine update h ⟨hl, rfl, le_refl _, hi, ?_, nofun, ?_, ?_, ?_⟩ fun f hf =>
    .inr ⟨mem_append_right _ ((hfd f).2 hf), fun b hb => mem_append_right _ hb⟩
  · exact .of_none rfl fun b hb => ⟨(h.ok i).serial_lt b hb, howner b hb, mem_append_right _ hb⟩
  · intro j hj f hf
    refine ⟨fun hm => hj (h.inj j i f hf ((hfd f).1 hm)), ?_⟩
    intro b hb heq
    rcases h.owner hb with hi' | ⟨-, hc⟩
    · exact hj (h.inj j i f hf (heq ▸ hi'))
    · exact ((h.ok j).fresh f hf).2 (heq ▸ hc)
  · refine ⟨by cases (t.sock i).fd <;> simp, ?_⟩
    intro f hf
    exact (h.ok i).fresh f ((hfd f).1 hf)
  · intro b hb
    refine ⟨(h.ok i).serial_lt b hb, ?_⟩
    rcases h.owner hb with hi' | ⟨-, hc⟩
    · exact ((h.ok i).fresh _ hi').1
    · exact h.closed_lt _ hc

/-- a socket is left to be flushed -/
theorem flushing (h : t.WF) (hi : i < t.size) (runtimeOk : Bool) :
    Reach t (t.setSock i { t.sock i with state := .flushing, blocked := runtimeOk }) :=
  setSock h hi nofun rfl rfl rfl fun _ hn => absurd rfl hn

/-- a socket that is being flushed has no more to send -/
theorem unblock (h : t.WF) (hi : i < t.size) (hs : (t.sock i).state = .flushing) :
    Reach t (t.setSock i { t.sock i with blocked := false }) :=
  setSock h hi (h.ok i).invalid rfl rfl rfl fun _ hn => absurd hs hn

theorem finish (h : t.WF) (hi : i < t.size) (runtimeOk : Bool) : Reach t (t.finish i runtimeOk) := by
  unfold Table.finish
  split_ifs
  · exact flushing h hi runtimeOk
  · exact closeNow h hi

theorem create (h : t.WF) {state : SocketState} (hs : state ≠ .closed) (blocked registered : Bool) :
    Reach t (t.create state blocked registered) := by
  have hlt := t.findNewSocket_lt
  obtain ⟨n, hn, hgrow⟩ := t.grow_eq
  rw [hgrow] at hlt
  have hfree : ∀ f, (t.sock t.findNewSocket).fd = some f → False := fun f hf => nomatch h.fd_findNewSocket.symm.trans hf
  have hnotin : t.nextFd ∉ t.closed := fun hm => absurd (h.closed_lt _ hm) (lt_irrefl _)
  have hnew : ∀ j, (t.sock j).fd ≠ some t.nextFd := fun j hj => absurd ((h.ok j).fresh _ hj).1 (lt_irrefl _)
  have hnofree : ∀ b : Block, b.owner = t.nextFd → b ∉ t.freed :=
    fun b hb hm => absurd (h.freed_lt b hm).2 (hb ▸ lt_irrefl _)
  unfold Table.create
  rw [hgrow]
  cases registered with
  | true =>
    refine update h ⟨⟨Nat.le_succ _, le_refl _, (append_nil _).symm, (append_nil _).symm⟩, rfl, hn, hlt, ?_, ?_,
      fun _ _ _ _ => ⟨not_mem_nil, nofun⟩, ⟨nodup_nil, nofun⟩, nofun⟩ fun f hf => (hfree f hf).elim
    · refine ⟨fun hc => absurd hc hs, ?_, nofun, fun _ => nodup_nil, nofun, nofun, ?_, fun _ _ _ => rfl⟩
      · intro f hf
        cases hf
        exact ⟨lt_add_one _, hnotin⟩
      · intro f hf b hb
        cases hf
        exact (count_eq_zero_of_not_mem (hnofree b hb)).trans_le (Nat.zero_le _)
    · intro f hf j _
      cases hf
      exact hnew j
  | false =>
    -- `register_socket_runtime` fails: the descriptor is closed at once
    refine update h ⟨⟨Nat.le_succ _, le_refl _, rfl, (append_nil _).symm⟩, rfl, hn, hlt, .of_none rfl nofun, nofun, ?_,
      ?_, nofun⟩ fun f hf => (hfree f hf).elim
    · intro j _ f hf
      refine ⟨fun hm => ?_, nofun⟩
      rw [mem_singleton] at hm
      exact hnew j (hm ▸ hf)
    · refine ⟨nodup_singleton _, ?_⟩
      intro f hf
      rw [mem_singleton] at hf
      rw [hf]
      exact ⟨lt_add_one _, hnotin⟩

end Reach

theorem advance_reach (h : t.WF) {state : SocketState} (blocked : Bool)
    (hold : (t.sock i).state = .unbound ∨ (t.sock i).state = .bound) (hs : state ≠ .closed) :
    Reach t (t.setSock i { t.sock i with state := state, blocked := blocked }) := by
  have hi : i < t.size := by
    by_contra hle
    rw [h.beyond i (Nat.not_lt.1 hle)] at hold
    exact hold.elim nofun nofun
  refine .setSock h hi (fun hc => absurd hc hs) rfl rfl rfl ?_
  intro hfd _ _
  refine (h.ok i).idle hfd ?_ (.inl ?_)
  all_goals rcases hold with hc | hc <;> rw [hc] <;> decide

theorem write_reach (h : t.WF) {f : ℕ} (hf : (t.sock i).fd = some f) (hstate : (t.sock i).state = .dataXfer)
    (hblocked : (t.sock i).blocked = false) : Reach t (t.writePart i f) := by
  have hw : (t.sock i).wBuf = none :=
    (h.ok i).idle (by simp [hf]) (by rw [hstate]; decide) (.inr hblocked)
  refine .allocate h hf rfl rfl ?_ fun _ hor => ?_
  · rw [Sock.bufs, Sock.bufs, hw, toList_none, append_nil]
    exact perm_append_singleton ..
  · exact hor.elim (absurd hstate) nofun

mutual

/-- **One act of a callback.** -/
theorem act_reach : ∀ (a : Act) (t : Table), t.WF → Reach t (act a t)
  | .create state blocked registered, t, h => by
    rw [act]
    exact .ite h fun hs => .create h (by rintro rfl; exact nomatch hs) blocked registered
  | .advance i state blocked, t, h => by
    rw [act]
    refine .ite h fun hc => ?_
    rw [Bool.and_eq_true, Bool.or_eq_true, decide_eq_true_eq, decide_eq_true_eq] at hc
    exact advance_reach h blocked hc.1 (by rintro rfl; exact nomatch hc.2)
  | .write i, t, h => by
    rw [act]
    cases hf : (t.sock i).fd with
    | none => exact .refl h
    | some f =>
      refine .ite h fun hc => ?_
      rw [Bool.and_eq_true, decide_eq_true_eq, Bool.not_eq_true'] at hc
      exact write_reach h hf hc.1 hc.2
  | .close i allowed runtimeOk, t, h => by
    rw [act]
    refine .ite h fun hm => ?_
    simp only [Table.mayClose, Bool.and_eq_true, decide_eq_true_eq] at hm
    exact .finish h hm.1.1.1 runtimeOk
  | .drop i callback runtimeOk, t, h => by
    rw [act]
    refine .ite h fun hm => ?_
    simp only [Table.mayClose, Bool.and_eq_true, decide_eq_true_eq] at hm
    have hreach := acts_reach callback t h
    exact hreach.trans (.finish hreach.wf (hm.1.1.1.trans_le hreach.size_le) runtimeOk)

/-- **Every behaviour of a callback.** -/
theorem acts_reach : ∀ (l : List Act) (t : Table), t.WF → Reach t (acts l t)
  | [], t, h => by
    rw [acts]
    exact .refl h
  | a :: l, t, h => by
    rw [acts]
    have hreach := act_reach a t h
    exact hreach.trans (acts_reach l (act a t) hreach.wf)

end

/-! ## Exactly once -/

/-- what `socket_close` owes the socket `f`, which was the socket `k` in slot `i` when it was called: its descriptor is
closed once; every buffer it had is freed, none of its blocks twice; and from `t`, where the callback has returned, to
`t'` nothing of another socket is closed, freed or changed -/
structure ClosesOnce (k : Sock) (f : ℕ) (t t' : Table) : Prop where
  fd_once : t'.closed.count f = 1
  bufs_freed : ∀ b ∈ k.bufs, b ∈ t'.freed
  bufs_once : ∀ b : Block, b.owner = f → t'.freed.count b ≤ 1
  closed_own : ∀ g, g ≠ f → t'.closed.count g = t.closed.count g
  freed_own : ∀ b : Block, b.owner ≠ f → t'.freed.count b = t.freed.count b
  others : ∀ j g, (t.sock j).fd = some g → g ≠ f → t'.sock j = t.sock j

/-- what is left of `socket_close` would free a block of `f` that is in slot `i`, though `f` is not -/
def Table.Stale (t : Table) (i f : ℕ) : Prop :=
  (t.sock i).blocked = false ∧ (t.sock i).fd ≠ some f ∧ ∃ b ∈ (t.sock i).bufs, b.owner = f

mutual

/-- no close in the act finds its slot stale when its callback has returned -/
def Act.Gentle (f : ℕ) : Act → Table → Prop
  | .close i allowed _, t => t.mayClose i allowed false → ¬ t.Stale i f
  | .drop i callback _, t => t.mayClose i true false → Gentle f callback t ∧ ¬ (acts callback t).Stale i f
  | _, _ => True

def Gentle (f : ℕ) : List Act → Table → Prop
  | [], _ => True
  | a :: l, t => a.Gentle f t ∧ Gentle f l (act a t)

end

/-- the condition: when the callback returns, the slot still holds the socket, without data to send; or it does not, no
close in the callback has found it stale, and it is either empty, with no pointer left in it, or its socket is already
being flushed -/
def Table.LeftAlone (t : Table) (callback : List Act) (i f : ℕ) (runtimeOk : Bool) : Prop :=
  let k := (acts callback t).sock i
  if k.fd = some f then k.blocked = false
  else Gentle f callback t ∧
    if k.blocked then k.fd ≠ none → k.state = .flushing ∧ runtimeOk = true else k.fd = none ∧ k.bufs = []

variable {runtimeOk : Bool}

theorem sock_closeNow_self (t : Table) (i : ℕ) :
    (t.closeNow i).sock i = { t.sock i with state := .closed, fd := none } := update_self ..

theorem closeNow_freed (t : Table) (i : ℕ) (b : Block) :
    (t.closeNow i).freed.count b = t.freed.count b + (t.sock i).bufs.count b := count_append

/-- no block of `f` has been freed twice -/
def Table.Single (t : Table) (f : ℕ) : Prop := ∀ b : Block, b.owner = f → t.freed.count b ≤ 1

/-- the rest of `socket_close` frees no block of `f` again, unless it finds the slot stale -/
theorem finish_single_iff (h : t.WF) (hs : t.Single f) : (t.finish i runtimeOk).Single f ↔ ¬ t.Stale i f := by
  unfold Table.finish
  split_ifs with hb
  · exact ⟨fun _ hst => Bool.false_ne_true (hst.1.symm.trans hb), fun _ => hs⟩
  have hb : (t.sock i).blocked = false := by simpa using hb
  refine ⟨fun hsingle ⟨_, hne, b, hmem, hown⟩ => ?_, fun hst b hown => ?_⟩
  · -- a pointer left in the slot is freed again
    have hone := hsingle b hown
    have hin : 0 < (t.sock i).bufs.count b := count_pos_iff.2 hmem
    obtain hfd | ⟨hnone, -⟩ := h.owner hmem
    · exact hne (hown ▸ hfd)
    · have hfreed : 0 < t.freed.count b := count_pos_iff.2 ((h.ok i).dangling hnone b hmem).2
      rw [closeNow_freed] at hone
      omega
  · rw [closeNow_freed]
    by_cases hmem : b ∈ (t.sock i).bufs
    · have hfd : (t.sock i).fd = some f := by_contra fun hne => hst ⟨hb, hne, b, hmem, hown⟩
      rw [count_eq_zero_of_not_mem ((h.ok i).own f hfd b hmem).2, Nat.zero_add]
      exact nodup_iff_count_le_one.1 ((h.ok i).nodup (by simp [hfd])) b
    · rw [count_eq_zero_of_not_mem hmem]
      exact hs b hown

/-- what was not freed twice later was not freed twice before -/
theorem Reach.single (h : Reach t t') (hs : t'.Single f) : t.Single f :=
  fun b hb => (h.freed_sub.sublist.count_le b).trans (hs b hb)

mutual

theorem act_single_iff : ∀ (a : Act) (t : Table), t.WF → t.Single f → ((act a t).Single f ↔ a.Gentle f t)
  | .create state blocked registered, t, h, hs => by
    obtain ⟨n, -, hgrow⟩ := Table.grow_eq t
    have hfreed : (act (.create state blocked registered) t).freed = t.freed := by
      simp only [act, Table.create, hgrow, Table.setSock]
      split_ifs <;> rfl
    simpa only [Table.Single, hfreed, Act.Gentle, iff_true] using hs
  | .advance i state blocked, t, h, hs => by
    have hfreed : (act (.advance i state blocked) t).freed = t.freed := by
      simp only [act, Table.setSock]
      split_ifs <;> rfl
    simpa only [Table.Single, hfreed, Act.Gentle, iff_true] using hs
  | .write i, t, h, hs => by
    have hfreed : (act (.write i) t).freed = t.freed := by
      simp only [act, Table.writePart, Table.setSock]
      split
      · split_ifs <;> rfl
      · rfl
    simpa only [Table.Single, hfreed, Act.Gentle, iff_true] using hs
  | .close i allowed runtimeOk, t, h, hs => by
    simp only [act, Act.Gentle]
    split_ifs with hc
    · simpa only [hc, true_implies] using finish_single_iff h hs
    · exact iff_of_true hs fun hc' => absurd hc' hc
  | .drop i callback runtimeOk, t, h, hs => by
    simp only [act, Act.Gentle]
    split_ifs with hc
    · have hreach := acts_reach callback t h
      have hin := acts_single_iff callback t h hs
      have hi : i < (acts callback t).size := lt_of_lt_of_le (by simp [Table.mayClose] at hc; exact hc.1.1) hreach.size_le
      simp only [hc, true_implies, ← hin]
      refine ⟨fun hend => ?_, fun hboth => (finish_single_iff hreach.wf hboth.1).2 hboth.2⟩
      have hmid := (Reach.finish hreach.wf hi runtimeOk).single hend
      exact ⟨hmid, (finish_single_iff hreach.wf hmid).1 hend⟩
    · exact iff_of_true hs fun hc' => absurd hc' hc

theorem acts_single_iff : ∀ (l : List Act) (t : Table), t.WF → t.Single f → ((acts l t).Single f ↔ Gentle f l t)
  | [], t, h, hs => iff_of_true hs trivial
  | a :: l, t, h, hs => by
    have hreach := act_reach a t h
    simp only [acts, Gentle, ← act_single_iff a t h hs]
    refine ⟨fun hend => ?_, fun hboth => (acts_single_iff l _ hreach.wf hboth.1).2 hboth.2⟩
    have hmid := (acts_reach l _ hreach.wf).single hend
    exact ⟨hmid, (acts_single_iff l _ hreach.wf hmid).1 hend⟩

end

/-- the slot still holds the socket -/
theorem closesOnce_of_held (h : t.WF) (hf : (t.sock i).fd = some f) (hbufs : ∀ b ∈ k.bufs, b ∈ (t.sock i).bufs) :
    ClosesOnce k f t (t.finish i runtimeOk) ↔ (t.sock i).blocked = false := by
  have hfresh : t.closed.count f = 0 := count_eq_zero_of_not_mem ((h.ok i).fresh f hf).2
  have hsingle : (t.finish i runtimeOk).Single f ↔ ¬ t.Stale i f := finish_single_iff h ((h.ok i).once f hf)
  unfold Table.finish at hsingle ⊢
  split_ifs at hsingle ⊢ with hb
  · -- the socket is left in FLUSHING, and nobody closes it
    refine ⟨fun hc => absurd hc.fd_once ?_, fun hc => absurd hb (by simp [hc])⟩
    show t.closed.count f ≠ 1
    omega
  refine ⟨fun _ => by simpa using hb, fun _ => ?_⟩
  have hclosed : (t.closeNow i).closed = t.closed ++ [f] := by
    show t.closed ++ (t.sock i).fd.toList = _
    rw [hf, toList_some]
  refine ⟨?_, fun b hb' => mem_append_right _ (hbufs b hb'), hsingle.2 fun hst => hst.2.1 hf, fun g hg => ?_,
    fun b hb' => ?_, fun j g hj hg => ?_⟩
  · rw [hclosed, count_append, hfresh, count_singleton_self]
  · rw [hclosed, count_append, count_singleton, if_neg (by simpa using hg.symm), Nat.add_zero]
  · have hm : b ∉ (t.sock i).bufs := fun hm => hb' ((h.ok i).own f hf b hm).1
    rw [closeNow_freed, count_eq_zero_of_not_mem hm, Nat.add_zero]
  · refine update_of_ne (fun hji => hg ?_) ..
    rw [hji, hf] at hj
    exact (some.inj hj).symm

/-- the callback has closed the socket -/
theorem closesOnce_of_gone (h : t.WF) (hf : (t.sock i).fd ≠ some f) (hclosed : f ∈ t.closed)
    (hbufs : ∀ b ∈ k.bufs, b ∈ t.freed) :
    ClosesOnce k f t (t.finish i runtimeOk) ↔ t.Single f ∧
      if (t.sock i).blocked then (t.sock i).fd ≠ none → (t.sock i).state = .flushing ∧ runtimeOk = true
      else (t.sock i).fd = none ∧ (t.sock i).bufs = [] := by
  have hone : t.closed.count f = 1 := count_eq_one_of_mem h.closed_nodup hclosed
  unfold Table.finish
  by_cases hb : (t.sock i).blocked = true
  · rw [if_pos hb, if_pos hb]
    set t' := t.setSock i { t.sock i with state := .flushing, blocked := runtimeOk } with ht'
    have hself : t'.sock i = { t.sock i with state := .flushing, blocked := runtimeOk } := update_self ..
    constructor
    · intro hc
      refine ⟨hc.bufs_once, fun hsome => ?_⟩
      obtain ⟨g, hg⟩ := ne_none_iff_exists'.1 hsome
      have hsame := hc.others i g hg fun heq => hf (heq ▸ hg)
      rw [hself] at hsame
      exact ⟨(congrArg Sock.state hsame).symm, (congrArg Sock.blocked hsame).trans hb⟩
    · rintro ⟨honce, hslot⟩
      refine ⟨hone, hbufs, honce, fun _ _ => rfl, fun _ _ => rfl, ?_⟩
      intro j g hj hg
      by_cases hji : j = i
      · subst hji
        obtain ⟨hstate, hok⟩ := hslot (by simp [hj])
        rw [hself, hok, ← hstate, ← hb]
      · exact update_of_ne hji ..
  · rw [if_neg hb, if_neg hb]
    constructor
    · intro hc
      have hnone : (t.sock i).fd = none := by
        by_contra hsome
        obtain ⟨g, hg⟩ := ne_none_iff_exists'.1 hsome
        have hsame := hc.others i g hg fun heq => hf (heq ▸ hg)
        rw [sock_closeNow_self] at hsame
        exact absurd ((congrArg Sock.fd hsame).trans hg) (some_ne_none g).symm
      refine ⟨fun b hb' => ?_, hnone, ?_⟩
      · have hle := hc.bufs_once b hb'
        rw [closeNow_freed] at hle
        omega
      · -- a pointer left in the slot is freed again
        rw [eq_nil_iff_forall_not_mem]
        intro b hb'
        have hin : 0 < (t.sock i).bufs.count b := count_pos_iff.2 hb'
        have hfreed : 0 < t.freed.count b := count_pos_iff.2 ((h.ok i).dangling hnone b hb').2
        have hcount := closeNow_freed t i b
        by_cases howner : b.owner = f
        · have hle := hc.bufs_once b howner
          omega
        · have heq := hc.freed_own b howner
          omega
    · rintro ⟨honce, hnone, hempty⟩
      have hclosedEq : (t.closeNow i).closed = t.closed := by
        show t.closed ++ (t.sock i).fd.toList = _
        rw [hnone, toList_none, append_nil]
      have hfreedEq : (t.closeNow i).freed = t.freed := by
        show t.freed ++ (t.sock i).bufs = _
        rw [hempty, append_nil]
      refine ⟨hclosedEq ▸ hone, hfreedEq ▸ hbufs, ?_, fun g _ => by rw [hclosedEq], fun b _ => by rw [hfreedEq], ?_⟩
      · rwa [hfreedEq]
      · intro j g hj _
        refine update_of_ne (fun hji => ?_) ..
        rw [hji, hnone] at hj
        cases hj

/-- **Closing exactly once.** From every sound table, and for every behaviour of the close callback, `socket_close` of
the socket in slot `i` closes and releases what it had exactly once and leaves every other socket alone, exactly if the
callback leaves the slot as `LeftAlone` says. -/
theorem closes_once_iff (t : Table) (h : t.WF) (i f : ℕ) (hf : (t.sock i).fd = some f) (callback : List Act)
    (runtimeOk : Bool) :
    ClosesOnce (t.sock i) f (acts callback t) (socketClose t i callback runtimeOk) ↔
      t.LeftAlone callback i f runtimeOk := by
  have hreach := acts_reach callback t h
  unfold socketClose Table.LeftAlone
  by_cases hheld : ((acts callback t).sock i).fd = some f
  · rw [if_pos hheld]
    apply closesOnce_of_held hreach.wf hheld
    rcases hreach.fate i f hf with ⟨-, hbufs⟩ | ⟨hclosed, -⟩
    · exact hbufs
    · exact absurd hclosed ((hreach.wf.ok i).fresh f hheld).2
  · rw [if_neg hheld, ← acts_single_iff callback t h ((h.ok i).once f hf)]
    rcases hreach.fate i f hf with ⟨hfd, -⟩ | ⟨hclosed, hfreed⟩
    · exact absurd hfd hheld
    · exact closesOnce_of_gone hreach.wf hheld hclosed hfreed

/-! ## Tables of a running driver -/

/-- what happens to the sockets: what LPC code does, and what the event loop does with their buffers -/
inductive Event where
  | lpc (a : Act)
  | header (i : ℕ)
  | text (i : ℕ)
  | flushed (i : ℕ) (runtimeOk : Bool)
  | gaveUp (i : ℕ)

namespace Table

/-- the read handler has got a header, and allocates the buffer for the text -/
def gotHeader (t : Table) (i fd : ℕ) : Table :=
  { t.setSock i { t.sock i with rBuf := some ⟨fd, t.nextBlock⟩ } with nextBlock := t.nextBlock + 1 }

/-- the read handler has got the text, and frees its buffer -/
def gotText (t : Table) (i : ℕ) : Table :=
  { t.setSock i { t.sock i with rBuf := none } with freed := t.freed ++ (t.sock i).rBuf.toList }

/-- the write handler has sent everything, and frees the write buffer -/
def freeWrite (t : Table) (i : ℕ) : Table :=
  { t.setSock i { t.sock i with blocked := false, wBuf := none } with freed := t.freed ++ (t.sock i).wBuf.toList }

end Table

def event : Event → Table → Table
  | .lpc a, t => act a t
  | .header i, t =>
    match (t.sock i).fd with
    | some fd => if (t.sock i).state = .dataXfer ∧ (t.sock i).rBuf = none then t.gotHeader i fd else t
    | none => t
  | .text i, t => if (t.sock i).state = .dataXfer ∧ (t.sock i).fd ≠ none then t.gotText i else t
  | .flushed i runtimeOk, t =>
    if (t.sock i).blocked = true ∧ (t.sock i).fd ≠ none then
      if !runtimeOk || (t.sock i).state = .flushing then (t.freeWrite i).closeNow i else t.freeWrite i
    else t
  | .gaveUp i, t =>
    if (t.sock i).blocked = true ∧ (t.sock i).state = .flushing ∧ (t.sock i).fd ≠ none then
      (t.setSock i { t.sock i with blocked := false }).closeNow i
    else t

def run (t : Table) (es : List Event) : Table := es.foldl (fun t e => event e t) t

/-- before the first socket -/
def Table.empty : Table := ⟨fun _ => Sock.free, 0, 0, 0, [], []⟩

namespace Table

theorem WF.ite {P : Prop} [Decidable P] (h : t.WF) (ht : P → t'.WF) : (if P then t' else t).WF := by
  split_ifs with hp
  · exact ht hp
  · exact h

theorem WF.gotHeader (h : t.WF) (hf : (t.sock i).fd = some f) (hr : (t.sock i).rBuf = none) : (t.gotHeader i f).WF := by
  have hsome : (t.sock i).fd ≠ none := by simp [hf]
  refine (Reach.allocate (k := { t.sock i with rBuf := some ⟨f, t.nextBlock⟩ }) h hf rfl rfl ?_
    ((h.ok i).idle hsome)).wf
  rw [Sock.bufs, Sock.bufs, hr]
  exact .refl _

theorem WF.gotText (h : t.WF) (hf : (t.sock i).fd ≠ none) : (t.gotText i).WF := by
  obtain ⟨f, hf'⟩ := ne_none_iff_exists'.1 hf
  exact h.update (h.exchange [] (h.lt_size hf') ⟨le_refl _, le_refl _, (append_nil _).symm, rfl⟩ rfl rfl rfl
    (h.ok i).invalid perm_append_comm nodup_nil nofun (absurd · hf) (h.ok i).idle)

theorem WF.freeWrite (h : t.WF) (hf : (t.sock i).fd ≠ none) : (t.freeWrite i).WF := by
  obtain ⟨f, hf'⟩ := ne_none_iff_exists'.1 hf
  refine h.update (h.exchange [] (h.lt_size hf') ⟨le_refl _, le_refl _, (append_nil _).symm, rfl⟩ rfl rfl rfl
    (h.ok i).invalid ?_ nodup_nil nofun (absurd · hf) fun _ _ _ => rfl)
  show ((t.sock i).rBuf.toList ++ [] ++ (t.sock i).wBuf.toList).Perm _
  rw [List.append_nil]
  exact .refl _

end Table

theorem event_wf (h : t.WF) (e : Event) : (event e t).WF := by
  cases e with
  | lpc a => exact (act_reach a t h).wf
  | header i =>
    simp only [event]
    cases hf : (t.sock i).fd with
    | none => exact h
    | some f => exact h.ite fun hc => h.gotHeader hf hc.2
  | text i => exact h.ite fun hc => h.gotText hc.2
  | flushed i runtimeOk =>
    refine h.ite fun hc => ?_
    have hwf := h.freeWrite hc.2
    obtain ⟨f, hf⟩ := ne_none_iff_exists'.1 hc.2
    split_ifs
    · exact (Reach.closeNow hwf (h.lt_size hf)).wf
    · exact hwf
  | gaveUp i =>
    refine h.ite fun hc => ?_
    obtain ⟨f, hf⟩ := ne_none_iff_exists'.1 hc.2.2
    exact (Reach.closeNow (Reach.unblock h (h.lt_size hf) hc.2.1).wf (h.lt_size hf)).wf

/-- **Every table of a running driver is sound.** -/
theorem run_wf (es : List Event) : (run Table.empty es).WF := by
  have hempty : Table.empty.WF := by
    exact ⟨fun _ => .of_none rfl nofun, fun _ _ => rfl, nofun, nofun, nodup_nil, nofun⟩
  induction es using reverseRecOn with
  | nil => exact hempty
  | append_singleton es e ih =>
    rw [run, foldl_append]
    exact event_wf ih e

/-- **Open sockets are safe.** Whatever the callbacks do, no descriptor is closed twice, and no socket has a closed one,
a freed buffer, or one that another socket has. -/
theorem open_sockets_apart (es : List Event) : let t := run Table.empty es
    t.closed.Nodup ∧ ∀ i j f g, (t.sock i).fd = some f → (t.sock j).fd = some g → f ∉ t.closed ∧ (f = g → i = j) ∧
      ∀ b ∈ (t.sock i).bufs, b ∉ t.freed ∧ (b ∈ (t.sock j).bufs → i = j) := by
  have h := run_wf es
  refine ⟨h.closed_nodup, fun i j f g hf hg => ?_⟩
  have hfg : f = g → i = j := fun heq => h.inj i j f hf (heq ▸ hg)
  refine ⟨((h.ok i).fresh f hf).2, hfg, fun b hb => ?_⟩
  obtain ⟨rfl, hfreed⟩ := (h.ok i).own f hf b hb
  exact ⟨hfreed, fun hb' => hfg ((h.ok j).own g hg b hb').1⟩

/-- a socket that has received a header -/
def readingSocket : Table := run Table.empty [.lpc (.create .dataXfer false true), .header 0]

/-- a callback that creates a socket -/
theorem readingSocket_closes_once : (readingSocket.sock 0).fd = some 0 ∧
      ClosesOnce (readingSocket.sock 0) 0 (acts [.create .unbound false true] readingSocket)
        (socketClose readingSocket 0 [.create .unbound false true] true) := by
  refine ⟨by decide, (closes_once_iff readingSocket (run_wf _) 0 0 (by decide) _ true).2 ?_⟩
  rw [Table.LeftAlone, if_pos (by decide)]
  decide

/-- **A callback that closes the socket again.** The buffer is freed twice. If the callback then creates a socket, that
socket gets the slot and is closed when the callback returns. -/
theorem closed_again_by_callback : (socketClose readingSocket 0 [.close 0 true true] true).freed = [⟨0, 0⟩, ⟨0, 0⟩] ∧
    ((acts [.close 0 true true, .create .unbound false true] readingSocket).sock 0).fd = some 1 ∧
    (socketClose readingSocket 0 [.close 0 true true, .create .unbound false true] true).closed = [0, 1] := by
  decide

end Lithos.Socket.SocketClose
