/-
# Xv6.Virtio.Driver — the disk driver and its device (`kernel/virtio_disk.c`).

The state is the driver's `struct disk`, the two rings it shares with the device, the device, and where
each process is.  A stretch with `vdisk_lock` held is one step of its process; the interrupt handler takes
its loop one turn at a time, so that the device can go on between two turns.  The device takes head
indices from the avail ring in order and completes what it took in any order, at any time.

Requests are numbered in the order in which the driver queues them.  The numbers, and the lists of what was
queued, completed, cleared and returned, are history: no step looks at them.
-/
import Xv6.Lib.Bytes
import Xv6.Lib.Ring
import Xv6.Lib.Trace
import Xv6.Param
import Mathlib.Data.Fin.VecNotation

namespace Xv6.Virtio

open Lib Function

def NUM : Nat := 8

instance : NeZero NUM := ⟨by decide⟩

def VRING_DESC_F_NEXT : BitVec 16 := 1
def VRING_DESC_F_WRITE : BitVec 16 := 2

def VIRTIO_BLK_T_IN : BitVec 32 := 0
def VIRTIO_BLK_T_OUT : BitVec 32 := 1

variable {P B : Type}

/-- What the address of a descriptor can be: 0, one of the driver's tables, or the data of a buffer. -/
inductive Addr (B : Type) where
  | null
  | ops (i : Fin NUM)
  | data (b : B)
  | status (i : Fin NUM)

/-- `struct virtq_desc`. -/
structure Desc (B : Type) where
  addr : Addr B
  len : Nat
  flags : BitVec 16
  next : Nat

/-- `struct virtio_blk_req`. -/
structure BlkReq where
  type : BitVec 32
  reserved : BitVec 32
  sector : BitVec 64

/-- An element of `disk.info`. -/
structure Info (B : Type) where
  b : Option B
  status : Byte

/-- One of the two rings, with the index of the party that fills it. -/
structure Virtq where
  idx : BitVec 16
  ring : Fin NUM → Nat

/-- A request of `virtio_disk_rw`: its number and its locals once it has descriptors. -/
structure Request (B : Type) where
  num : Nat
  idx : Fin 3 → Fin NUM
  buf : B
  sector : BitVec 64
  write : Bool

/-- The three descriptors of a request, as `virtio_disk_rw` formats them. -/
def Request.desc (r : Request B) : Fin 3 → Desc B
  | 0 => ⟨.ops (r.idx 0), 16, VRING_DESC_F_NEXT, r.idx 1⟩
  | 1 => ⟨.data r.buf, BSIZE, (if r.write then 0 else VRING_DESC_F_WRITE) ||| VRING_DESC_F_NEXT,
      r.idx 2⟩
  | 2 => ⟨.status (r.idx 0), 1, VRING_DESC_F_WRITE, 0⟩

/-- The command header of a request. -/
def Request.op (r : Request B) : BlkReq :=
  ⟨if r.write then VIRTIO_BLK_T_OUT else VIRTIO_BLK_T_IN, 0, r.sector⟩

/-- A request that the device has taken: the head index it read, and the number of takes before. -/
structure Token where
  head : Nat
  num : Nat

/-- Where a process is. -/
inductive Pc (B : Type) where
  /-- Not in `virtio_disk_rw`. -/
  | idle
  /-- About to take the lock and look for descriptors. -/
  | start (b : B) (sector : BitVec 64) (write : Bool)
  /-- Sleeping on `&disk.free[0]`. -/
  | sleepFree (b : B) (sector : BitVec 64) (write : Bool)
  /-- About to take the lock again and look at `b->disk`. -/
  | check (r : Request B)
  /-- Sleeping on `b`. -/
  | sleepBuf (r : Request B)

namespace Pc

/-- `wakeup(&disk.free[0])`, for one process. -/
def wakeFree : Pc B → Pc B
  | .sleepFree b sector write => .start b sector write
  | pc => pc

/-- `wakeup(b)`, for one process. -/
def wakeBuf [DecidableEq B] (b : B) : Pc B → Pc B
  | .sleepBuf r => if r.buf = b then .check r else .sleepBuf r
  | pc => pc

/-- The buffer of the call the process is in. -/
def buf : Pc B → Option B
  | .idle => none
  | .start b _ _ | .sleepFree b _ _ => some b
  | .check r | .sleepBuf r => some r.buf

/-- The request the process waits for. -/
def request : Pc B → Option (Request B)
  | .check r | .sleepBuf r => some r
  | _ => none

end Pc

/-- Why a step does not happen: it is not possible, it panics, it leaves an array or follows a bad
pointer, or it does not end. -/
inductive Fault where
  | refused
  | panic (msg : String)
  | wild
  | hang
  deriving DecidableEq

/-- The driver, the device and the processes. -/
structure Sys (P B : Type) where
  desc : Fin NUM → Desc B
  avail : Virtq
  used : Virtq
  free : Fin NUM → Bool
  usedIdx : BitVec 16
  info : Fin NUM → Info B
  ops : Fin NUM → BlkReq
  /-- `b->disk`. -/
  disk : B → Bool
  /-- How far the device has looked into the avail ring. -/
  seen : BitVec 16
  /-- What the device has taken and not completed. -/
  taken : List Token
  /-- The interrupt handler has the lock. -/
  intr : Bool
  pc : P → Pc B
  /-- The sleep-lock of the buffer is held by a process in `virtio_disk_rw`. -/
  busy : B → Bool
  submitted : List (Request B)
  takes : Nat
  completed : List Token
  /-- The buffers whose flag the handler cleared, with the flag before. -/
  cleared : List (B × Bool)
  returned : List Nat

/-- What can happen. -/
inductive Act (P B : Type) where
  | virtioDiskRw (p : P) (b : B) (blockno : BitVec 32) (write : Bool)
  /-- A process in `virtio_disk_rw` gets the lock and goes on until it gives it back. -/
  | enter (p : P)
  /-- The handler gets the lock. -/
  | virtioDiskIntr
  /-- The handler takes a turn of its loop. -/
  | turn
  /-- The device takes the next head index. -/
  | take
  /-- The device completes the request at a place among those it took. -/
  | complete (i : Nat)

namespace Sys

def wakeFree (s : Sys P B) : Sys P B := { s with pc := fun p => (s.pc p).wakeFree }

/-- `alloc_desc`: the first free descriptor. -/
def allocDesc (s : Sys P B) : Option (Fin NUM × Sys P B) :=
  match (List.finRange NUM).find? s.free with
  | some i => some (i, { s with free := update s.free i false })
  | none => none

def freeDesc (s : Sys P B) (i : Nat) : Except Fault (Sys P B) :=
  if h : i < NUM then
    if s.free ⟨i, h⟩ then .error (.panic "free_desc 2")
    else
      .ok { s.wakeFree with
        desc := update s.desc ⟨i, h⟩ ⟨.null, 0, 0, 0⟩
        free := update s.free ⟨i, h⟩ true }
  else .error (.panic "free_desc 1")

/-- `free_chain`.  Every turn marks a descriptor as free that was not, so `NUM + 1` turns are enough. -/
def freeChain : Nat → Sys P B → Nat → Except Fault (Sys P B)
  | 0, _, _ => .error .hang
  | fuel + 1, s, i =>
    if h : i < NUM then
      let d := s.desc ⟨i, h⟩
      s.freeDesc i >>= fun s =>
        if d.flags &&& VRING_DESC_F_NEXT ≠ 0 then freeChain fuel s d.next else .ok s
    else s.freeDesc i

/-- `alloc3_desc`, with its loop of three turns written out. -/
def alloc3Desc (s : Sys P B) : Except Fault (Option (Fin 3 → Fin NUM) × Sys P B) :=
  match s.allocDesc with
  | none => .ok (none, s)
  | some (i₀, s) =>
    match s.allocDesc with
    | none => s.freeDesc i₀ >>= fun s => .ok (none, s)
    | some (i₁, s) =>
      match s.allocDesc with
      | none => s.freeDesc i₀ >>= fun s => s.freeDesc i₁ >>= fun s => .ok (none, s)
      | some (i₂, s) => .ok (some ![i₀, i₁, i₂], s)

variable [DecidableEq B]

def wakeBuf (s : Sys P B) (b : B) : Sys P B := { s with pc := fun p => (s.pc p).wakeBuf b }

/-- Format the descriptors of a request, record its buffer and queue its head index. -/
def submit (s : Sys P B) (r : Request B) : Sys P B :=
  { s with
    ops := update s.ops (r.idx 0) r.op
    desc := update (update (update s.desc
      (r.idx 0) (r.desc 0)) (r.idx 1) (r.desc 1)) (r.idx 2) (r.desc 2)
    info := update s.info (r.idx 0) ⟨some r.buf, 0xff⟩
    disk := update s.disk r.buf true
    avail := ⟨s.avail.idx + 1, update s.avail.ring (cell NUM s.avail.idx) (r.idx 0)⟩
    submitted := s.submitted ++ [r] }

/-- One turn of the loop of `virtio_disk_intr`, or its end. -/
def turn (s : Sys P B) : Except Fault (Sys P B) :=
  if s.usedIdx ≠ s.used.idx then
    let id := s.used.ring (cell NUM s.usedIdx)
    if h : id < NUM then
      if (s.info ⟨id, h⟩).status ≠ 0 then .error (.panic "virtio_disk_intr status")
      else
        match (s.info ⟨id, h⟩).b with
        | none => .error .wild
        | some b =>
          .ok { s.wakeBuf b with
            disk := update s.disk b false
            usedIdx := s.usedIdx + 1
            cleared := s.cleared ++ [(b, s.disk b)] }
    else .error .wild
  else .ok { s with intr := false }

/-! ## The device -/

def descAt (s : Sys P B) (i : Nat) : Option (Desc B) := if h : i < NUM then some (s.desc ⟨i, h⟩) else none

/-- The address of the third descriptor of a chain. -/
def statusAddr (s : Sys P B) (head : Nat) : Option (Addr B) :=
  s.descAt head >>= fun d₀ => s.descAt d₀.next >>= fun d₁ => s.descAt d₁.next >>= fun d₂ => some d₂.addr

def take (s : Sys P B) : Except Fault (Sys P B) :=
  if s.seen ≠ s.avail.idx then
    .ok { s with
      seen := s.seen + 1
      taken := s.taken ++ [⟨s.avail.ring (cell NUM s.seen), s.takes⟩]
      takes := s.takes + 1 }
  else .error .refused

/-- The device writes the status 0 where the chain says, and appends the head index to the used ring. -/
def complete (s : Sys P B) (i : Nat) : Except Fault (Sys P B) :=
  match s.taken[i]? with
  | none => .error .refused
  | some t =>
    match s.statusAddr t.head with
    | some (.status k) =>
      .ok { s with
        info := update s.info k { s.info k with status := 0 }
        used := ⟨s.used.idx + 1, update s.used.ring (cell NUM s.used.idx) t.head⟩
        taken := s.taken.eraseIdx i
        completed := s.completed ++ [t] }
    | _ => .error .wild

/-! ## The processes -/

variable [DecidableEq P]

def goto (s : Sys P B) (p : P) (pc : Pc B) : Sys P B := { s with pc := update s.pc p pc }

/-- `virtio_disk_rw` from the test of `b->disk` on. -/
def await (s : Sys P B) (p : P) (r : Request B) : Except Fault (Sys P B) :=
  if s.disk r.buf then .ok (s.goto p (.sleepBuf r))
  else
    freeChain (NUM + 1) { s with
      info := update s.info (r.idx 0) { s.info (r.idx 0) with b := none } } (r.idx 0) >>= fun s =>
    .ok { s.goto p .idle with
      busy := update s.busy r.buf false
      returned := s.returned ++ [r.num] }

/-- `virtio_disk_rw` from the search for descriptors on. -/
def request (s : Sys P B) (p : P) (b : B) (sector : BitVec 64) (write : Bool) :
    Except Fault (Sys P B) :=
  s.alloc3Desc >>= fun (idx, s) =>
    match idx with
    | none => .ok (s.goto p (.sleepFree b sector write))
    | some idx =>
      let r : Request B := ⟨s.submitted.length, idx, b, sector, write⟩
      (s.submit r).await p r

def step (s : Sys P B) : Act P B → Except Fault (Sys P B)
  | .virtioDiskRw p b blockno write =>
    match s.pc p with
    | .idle =>
      if s.busy b then .error .refused
      else
        let sector := (blockno * BitVec.ofNat 32 (BSIZE / 512)).setWidth 64
        .ok { s.goto p (.start b sector write) with busy := update s.busy b true }
    | _ => .error .refused
  | .enter p =>
    if s.intr then .error .refused
    else
      match s.pc p with
      | .start b sector write => s.request p b sector write
      | .check r => s.await p r
      | _ => .error .refused
  | .virtioDiskIntr => if s.intr then .error .refused else .ok { s with intr := true }
  | .turn => if s.intr then s.turn else .error .refused
  | .take => s.take
  | .complete i => s.complete i

/-- The state that `virtio_disk_init` leaves. -/
def init : Sys P B where
  desc _ := ⟨.null, 0, 0, 0⟩
  avail := ⟨0, fun _ => 0⟩
  used := ⟨0, fun _ => 0⟩
  free _ := true
  usedIdx := 0
  info _ := ⟨none, 0⟩
  ops _ := ⟨0, 0, 0⟩
  disk _ := false
  seen := 0
  taken := []
  intr := false
  pc _ := .idle
  busy _ := false
  submitted := []
  takes := 0
  completed := []
  cleared := []
  returned := []

end Sys

end Xv6.Virtio
