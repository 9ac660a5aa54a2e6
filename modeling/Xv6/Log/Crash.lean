/-
# Xv6.Log.Crash — a commit is atomic under crashes, and so is recovery.

The argument has two halves.  First the block writes that `commit` and `recoverFromLog` issue are
computed as plain lists (`commit_writes`, `recoveryWrites_eq`): log blocks, header, home blocks,
cleared header.  Then the surviving disk after any prefix is one of three kinds, each kept by every
prefix of recovery:

* `Uncommitted`: the header is clear and every block outside the log still has its old value;
* `Committed`: the header lists the transaction and the log blocks hold its contents, while each
  home block may hold anything — replay overwrites it;
* `Installed`: the header is clear again and every block outside the log has its new value.

`Recovered.of_invariant` turns these into the theorem for recovery that is itself crashed and
restarted any number of times.
-/
import Xv6.Log.Redo

namespace Xv6

open Lib Machine Function List Nat

variable {d f : Disk} {S : Set Nat} {lru : Bcache → Nat → Option Nat} {log : Log} {m : Machine}
  {tail : Nat} {b : BlockNo}

/-! ## The writes of one loop turn -/

/-- What a step of the log code keeps: clean buffers stay clean and held buffers stay held, except
for the blocks in `S`, and the disk stays the image of the writes. -/
structure Keeps (S : Set Nat) (m m' : Machine) : Prop where
  clean : ∀ y e, y ∉ S → Clean m y e → Clean m' y e
  traced : ∀ d, Traced d m → Traced d m'

theorem Keeps.refl (S : Set Nat) (m : Machine) : Keeps S m m :=
  ⟨fun _ _ _ h => h, fun _ h => h⟩

theorem Keeps.trans (h₁ : Keeps S m₁ m₂) (h₂ : Keeps S m₂ m₃) : Keeps S m₁ m₃ :=
  ⟨fun y e hy h => h₂.clean y e hy (h₁.clean y e hy h),
    fun d h => h₂.traced d (h₁.traced d h)⟩

theorem Keeps.mono (h : Keeps S m m') (hST : S ⊆ T) :
    Keeps T m m' :=
  ⟨fun y e hy => h.clean y e fun hS => hy (hST hS), h.traced⟩

theorem keeps_bread (S : Set Nat) (x : Nat) (m : Machine) : Keeps S m (m.bread lru x) :=
  ⟨fun _ _ _ h => h.bread, fun _ h => h.of_eq bread_disk bread_writes⟩

theorem keeps_brelse (S : Set Nat) (x : Nat) (m : Machine) : Keeps S m (m.brelse x) :=
  ⟨fun _ _ _ h => h.brelse, fun _ h => h.of_eq rfl rfl⟩

theorem keeps_setData (hx : x ∈ S) (f : Block → Block) (m : Machine) :
    Keeps S m (m.setData x f) :=
  ⟨fun _ _ hy h => h.setData fun he => hy (he ▸ hx), fun _ h => h.of_eq rfl rfl⟩

theorem keeps_bwrite (hx : x ∈ S) (m : Machine) : Keeps S m (m.bwrite x) :=
  ⟨fun _ _ hy h => h.bwrite fun he => hy (he ▸ hx), fun _ h => h.bwrite x⟩

/-- Two blocks are read, and one of them is filled and written. -/
theorem keeps_copy (f : Block → Block) :
    Keeps {z} m ((((m.bread lru x).bread lru y).setData z f).bwrite z) :=
  (((keeps_bread _ _ _).trans (keeps_bread _ _ _)).trans
    (keeps_setData (Set.mem_singleton _) f _)).trans (keeps_bwrite (Set.mem_singleton _) _)

theorem keeps_writeLogBlock :
    Keeps {log.start + tail + 1} m (writeLogBlock lru log tail b m) :=
  ((keeps_copy _).trans (keeps_brelse _ _ _)).trans (keeps_brelse _ _ _)

theorem keeps_installBlock :
    Keeps {b.toNat} m (installBlock lru log recovering tail b m) := by
  cases recovering with
  | true => exact ((keeps_copy _).trans (keeps_brelse _ _ _)).trans (keeps_brelse _ _ _)
  | false =>
    exact (((keeps_copy _).trans (keeps_brelse _ _ _)).trans (keeps_brelse _ _ _)).trans
      (keeps_brelse _ _ _)

theorem keeps_writeHead (log : Log) (m : Machine) : Keeps {log.start} m (writeHead lru log m) :=
  (((keeps_bread _ _ _).trans (keeps_setData (Set.mem_singleton _) _ _)).trans
    (keeps_bwrite (Set.mem_singleton _) _)).trans (keeps_brelse _ _ _)

variable (lru)

/-- **One turn of `write_log`** writes the cached contents of its block to the log, leaves the log
buffer clean, and keeps every other buffer that is in use. -/
theorem writeLogBlock_spec (tail : Nat) {d : Block} {r : Nat} (hb : Held m b.toNat d (r + 1))
    (hne : b.toNat ≠ log.start + tail + 1) :
    (writeLogBlock lru log tail b m).writes = m.writes ++ [(log.start + tail + 1, d)] ∧
    Clean (writeLogBlock lru log tail b m) (log.start + tail + 1) d ∧
    (∀ y e s, y ≠ log.start + tail + 1 → Held m y e (s + 1) →
      Held (writeLogBlock lru log tail b m) y e (s + 1)) := by
  set x := log.start + tail + 1 with hx
  -- the machine after the two reads, after the copy, and after the disk write
  let m2 := (m.bread lru x).bread lru b.toNat
  let m3 := m2.setData x fun _ => m2.data b.toNat
  let m4 := m3.bwrite x
  have hdef : writeLogBlock lru log tail b m = (m4.brelse b.toNat).brelse x := rfl
  obtain ⟨s, hs⟩ := bread_held lru m x
  have hto : Held m2 x (m.data x) (s + 1) := hs.bread hne.symm
  have hfrom : m2.data b.toNat = d := (hb.bread hne).bread_self.data
  have hto3 : Held m3 x d (s + 1) := by
    rw [← hfrom]
    exact hto.setData_self
  rw [hdef]
  refine ⟨?_, hto3.bwrite_clean.brelse.brelse, ?_⟩
  · rw [brelse_writes, brelse_writes, bwrite_writes, hto3.data, setData_writes, bread_writes,
      bread_writes]
  · intro y e' s' hy h
    have h1 : Held (m.bread lru x) y e' (s' + 1) := h.bread hy
    by_cases hyb : y = b.toNat
    · subst hyb
      have h2 : Held m2 b.toNat e' (s' + 2) := h1.bread_self
      have h4 : Held m4 b.toNat e' (s' + 2) := (h2.setData hy).bwrite
      exact h4.brelse_self.brelse hy
    · have h2 : Held m2 y e' (s' + 1) := h1.bread hyb
      have h4 : Held m4 y e' (s' + 1) := (h2.setData hy).bwrite
      exact (h4.brelse hyb).brelse hy

/-- **One turn of `install_trans`** writes the log block to its home location. -/
theorem installBlock_writes (tail : Nat) (b : BlockNo) (recovering : Bool) {d : Block}
    (hl : Clean m (log.start + tail + 1) d) :
    (installBlock lru log recovering tail b m).writes = m.writes ++ [(b.toNat, d)] := by
  set x := log.start + tail + 1 with hx
  let m2 := (m.bread lru x).bread lru b.toNat
  let m3 := m2.setData b.toNat fun _ => m2.data x
  let m4 := m3.bwrite b.toNat
  have hlog : m2.data x = d := hl.bread.bread.data
  obtain ⟨s, hs⟩ := bread_held lru (m.bread lru x) b.toNat
  have hd3 : Held m3 b.toNat d (s + 1) := by
    rw [← hlog]
    exact Held.setData_self (m := m2) hs
  have hw4 : m4.writes = m.writes ++ [(b.toNat, d)] := by
    rw [bwrite_writes, hd3.data, setData_writes, bread_writes, bread_writes]
  cases recovering <;> exact hw4

/-- `write_head` issues one write: the header block, with the in-memory header filled in. -/
theorem writeHead_writes (log : Log) (m : Machine) :
    ∃ hb, (writeHead lru log m).writes = m.writes ++ [(log.start, putHead log.lh hb)] := by
  let m2 := (m.bread lru log.start).setData log.start (putHead log.lh)
  obtain ⟨s, hs⟩ := bread_held lru m log.start
  have h2 : Held m2 log.start (putHead log.lh (m.data log.start)) (s + 1) := hs.setData_self
  have hdef : writeHead lru log m = (m2.bwrite log.start).brelse log.start := rfl
  refine ⟨m.data log.start, ?_⟩
  rw [hdef, brelse_writes, bwrite_writes, h2.data, setData_writes, bread_writes]

/-! ## The writes of the loops -/

/-- The writes of `write_log` for the contents `cs`, from log block `tail` on. -/
def logWrites (start : Nat) : Nat → List Block → List (Nat × Block)
  | _, [] => []
  | tail, c :: cs => (start + tail + 1, c) :: logWrites start (tail + 1) cs

theorem mem_logWrites
    (h : w ∈ logWrites start tail cs) :
    start + tail < w.1 ∧ w.1 ≤ start + tail + cs.length := by
  induction cs generalizing tail with
  | nil => cases h
  | cons c cs ih =>
    rw [length_cons]
    rcases mem_cons.mp h with rfl | h
    · constructor <;> simp only <;> omega
    · have := ih h
      omega

/-- After the writes of `write_log`, log block `tail + i` holds the `i`-th contents. -/
theorem applyWrites_logWrites (start tail : Nat) (cs : List Block) (d : Disk)
    (hi : i < cs.length) :
    applyWrites (logWrites start tail cs) d (start + tail + i + 1) = cs[i] := by
  induction cs generalizing tail d i with
  | nil => exact absurd hi (not_lt_zero i)
  | cons c cs ih =>
    rw [logWrites, applyWrites_cons]
    cases i with
    | zero =>
      rw [applyWrites_of_notMem]
      · exact update_self ..
      · intro w hw
        have := mem_logWrites hw
        omega
    | succ i =>
      rw [show start + tail + (i + 1) + 1 = start + (tail + 1) + i + 1 by omega]
      exact ih _ _ (by simpa using hi)

/-- **The loop of `write_log`** copies the pinned contents of its blocks to the log, in order. -/
theorem writeLogFrom_spec (new : Nat → Block)
    (hb : ∀ b ∈ bs, ∃ r, Held m b.toNat (new b.toNat) (r + 1))
    (hne : ∀ b ∈ bs, ∀ i, i < bs.length → b.toNat ≠ log.start + (tail + i) + 1) :
    (writeLogFrom lru log tail bs m).writes =
      m.writes ++ logWrites log.start tail (bs.map fun b => new b.toNat) ∧
    (∀ i (h : i < bs.length),
      Clean (writeLogFrom lru log tail bs m) (log.start + (tail + i) + 1) (new bs[i].toNat)) ∧
    Keeps {y | log.start + tail < y ∧ y ≤ log.start + tail + bs.length} m
      (writeLogFrom lru log tail bs m) := by
  induction bs generalizing tail m with
  | nil => exact ⟨by simp [writeLogFrom, logWrites], fun i h => absurd h (not_lt_zero i),
      Keeps.refl _ m⟩
  | cons b bs ih =>
    simp only [length_cons] at hne
    obtain ⟨r, hr⟩ := hb b mem_cons_self
    obtain ⟨hw, hc, hh⟩ := writeLogBlock_spec lru tail hr
      (hne b mem_cons_self 0 (succ_pos _))
    -- the remaining blocks are still pinned after this turn
    have hb' : ∀ c ∈ bs, ∃ r, Held (writeLogBlock lru log tail b m) c.toNat (new c.toNat) (r + 1) := by
      intro c hcm
      obtain ⟨s, hs⟩ := hb c (mem_cons_of_mem _ hcm)
      exact ⟨s, hh _ _ _ (hne c (mem_cons_of_mem _ hcm) 0 (succ_pos _)) hs⟩
    have hne' : ∀ c ∈ bs, ∀ i, i < bs.length → c.toNat ≠ log.start + (tail + 1 + i) + 1 := by
      intro c hcm i hi
      have := hne c (mem_cons_of_mem _ hcm) (i + 1) (by omega)
      omega
    obtain ⟨hw', hc', hk'⟩ := ih hb' hne'
    have hk : Keeps {log.start + tail + 1} m (writeLogBlock lru log tail b m) := keeps_writeLogBlock
    rw [writeLogFrom]
    refine ⟨?_, ?_, ?_⟩
    · rw [hw', hw, map_cons, logWrites, append_assoc, singleton_append]
    · intro i hi
      cases i with
      | zero =>
        refine hk'.clean _ _ ?_ hc
        simp only [Set.mem_ofPred_eq]
        omega
      | succ i =>
        have := hc' i (by simpa using hi)
        rwa [show tail + 1 + i = tail + (i + 1) by omega] at this
    · refine (hk.mono ?_).trans (hk'.mono ?_)
      · rintro y rfl
        simp only [Set.mem_ofPred_eq, length_cons]
        omega
      · intro y hy
        simp only [Set.mem_ofPred_eq, length_cons] at hy ⊢
        omega

/-- **The loop of `install_trans`** copies log blocks to their home locations, in order. -/
theorem installFrom_spec (log : Log) (recovering : Bool) {bs : List BlockNo} {cs : List Block}
    (hlen : cs.length = bs.length)
    (hc : ∀ i (h : i < cs.length), Clean m (log.start + (tail + i) + 1) cs[i])
    (hne : ∀ b ∈ bs, ∀ i, i < bs.length → b.toNat ≠ log.start + (tail + i) + 1) :
    (installFrom lru log recovering tail bs m).writes =
      m.writes ++ (bs.map BitVec.toNat).zip cs ∧
    Keeps {y | ∃ b ∈ bs, y = b.toNat} m (installFrom lru log recovering tail bs m) := by
  induction bs generalizing cs tail m with
  | nil => exact ⟨by simp [installFrom], Keeps.refl _ m⟩
  | cons b bs ih =>
    obtain ⟨c, cs, rfl⟩ := exists_cons_of_length_eq_add_one hlen
    simp only [length_cons, add_right_cancel_iff] at hlen hne
    have hk : Keeps {b.toNat} m (installBlock lru log recovering tail b m) := keeps_installBlock
    have hw := installBlock_writes lru tail b recovering (hc 0 (succ_pos _))
    have hc' : ∀ i (h : i < cs.length), Clean (installBlock lru log recovering tail b m)
        (log.start + (tail + 1 + i) + 1) cs[i] := by
      intro i hi
      refine hk.clean _ _ ?_ ?_
      · have := hne b mem_cons_self (i + 1) (by omega)
        simp only [Set.mem_singleton_iff]
        omega
      · have := hc (i + 1) (by simpa using hi)
        rwa [show tail + (i + 1) = tail + 1 + i by omega] at this
    have hne' : ∀ c ∈ bs, ∀ i, i < bs.length → c.toNat ≠ log.start + (tail + 1 + i) + 1 := by
      intro c hcm i hi
      have := hne c (mem_cons_of_mem _ hcm) (i + 1) (by omega)
      omega
    obtain ⟨hw', hk'⟩ := ih hlen hc' hne'
    rw [installFrom]
    refine ⟨?_, ?_⟩
    · rw [hw', hw, map_cons, zip_cons_cons, append_assoc, singleton_append,
        getElem_cons_zero]
    · refine (hk.mono ?_).trans (hk'.mono ?_)
      · rintro y rfl
        exact ⟨b, mem_cons_self, rfl⟩
      · rintro y ⟨c, hcm, rfl⟩
        exact ⟨c, mem_cons_of_mem _ hcm, rfl⟩

/-! ## The writes of a commit and of a recovery -/

section

variable (log)

/-- The block writes that `commit` issues when it starts on the machine `m`. -/
def commitWrites (m : Machine) : List (Nat × Block) :=
  (commit lru log { m with writes := [] }).2.writes

/-- The block writes that `recover_from_log` issues after a boot on the disk `d`. -/
def recoveryWrites (d : Disk) : List (Nat × Block) :=
  (recoverFromLog lru log (Machine.boot d)).2.writes

/-- The disk that survives a crash after `j` block writes of `commit`. -/
def crashDisk (m : Machine) (j : Nat) : Disk :=
  applyWrites ((commitWrites lru log m).take j) m.disk

/-- The disk contents a transaction is meant to produce: the cached contents of the logged blocks,
and the old contents of every other block. -/
def afterTrans (m : Machine) : Disk := fun b =>
  if b ∈ log.lh.map BitVec.toNat then m.data b else m.disk b

/-- The blocks of the transaction with their new contents. -/
def transWrites (m : Machine) : List (Nat × Block) :=
  log.lh.map fun b => (b.toNat, m.data b.toNat)

end

/-- What the log code relies on when it commits: the logged blocks are distinct, lie outside the
log, fit into it, and are pinned in the cache. -/
structure Committable (log : Log) (m : Machine) : Prop where
  nonempty : log.lh ≠ []
  nodup : log.lh.Nodup
  fitsHeader : log.lh.length ≤ LOGSIZE
  fitsLog : (log.lh.length : Int) ≤ (log.size : Int) - 1
  outside : ∀ b ∈ log.lh, ¬ log.InArea b.toNat
  pinned : ∀ b ∈ log.lh, ∃ buf, m.bcache b.toNat = some buf ∧ 0 < buf.refcnt

theorem Committable.ne_logBlock (h : Committable log m)
    (hb : b ∈ log.lh) (hi : i < log.lh.length) : b.toNat ≠ log.start + (0 + i) + 1 := by
  have h1 := h.outside b hb
  have h2 := h.fitsLog
  unfold Log.InArea at h1
  omega

/-- **The writes of a commit**: the log blocks, the header, the home blocks, the cleared header. -/
theorem commit_writes (h : Committable log m) :
    ∃ hb₁ hb₂, commitWrites lru log m =
      logWrites log.start 0 (log.lh.map fun b => m.data b.toNat) ++
        (log.start, putHead log.lh hb₁) ::
          (transWrites log m ++ [(log.start, putHead [] hb₂)]) := by
  set m0 : Machine := { m with writes := [] } with hm0
  have hpin : ∀ b ∈ log.lh, ∃ r, Held m0 b.toNat (m.data b.toNat) (r + 1) := by
    intro b hb
    obtain ⟨buf, hbuf, hr⟩ := h.pinned b hb
    refine ⟨buf.refcnt - 1, ?_⟩
    have hd : m.data b.toNat = buf.data := by
      unfold data
      rw [hbuf]
    rw [hd, Nat.sub_add_cancel hr]
    exact hbuf
  obtain ⟨hw1, hc1, -⟩ := writeLogFrom_spec lru m.data hpin
    fun b hb i hi => h.ne_logBlock hb hi
  obtain ⟨hb₁, hw2⟩ := writeHead_writes lru log (writeLog lru log m0)
  have hk2 : Keeps {log.start} (writeLog lru log m0) (writeHead lru log (writeLog lru log m0)) :=
    keeps_writeHead _ _
  have hc2 : ∀ i (hi : i < (log.lh.map fun b => m.data b.toNat).length),
      Clean (writeHead lru log (writeLog lru log m0)) (log.start + (0 + i) + 1)
        (log.lh.map fun b => m.data b.toNat)[i] := by
    intro i hi
    rw [getElem_map]
    refine hk2.clean _ _ ?_ (hc1 i (by simpa using hi))
    simp only [Set.mem_singleton_iff]
    omega
  obtain ⟨hw3, -⟩ := installFrom_spec lru log false (length_map _) hc2
    fun b hb i hi => h.ne_logBlock hb hi
  obtain ⟨hb₂, hw4⟩ := writeHead_writes lru { log with lh := [] }
    (installTrans lru log false (writeHead lru log (writeLog lru log m0)))
  refine ⟨hb₁, hb₂, ?_⟩
  have hcommit : commitWrites lru log m =
      (writeHead lru { log with lh := [] }
        (installTrans lru log false (writeHead lru log (writeLog lru log m0)))).writes := by
    unfold commitWrites commit
    rw [if_pos (length_pos_iff.mpr h.nonempty)]
  have hzip : (log.lh.map BitVec.toNat).zip (log.lh.map fun b => m.data b.toNat) =
      transWrites log m := by
    rw [zip_map', transWrites]
  rw [hcommit, hw4]
  simp only [installTrans, writeLog] at hw2 hw3 ⊢
  rw [hw3, hw2, hw1, hzip, hm0]
  simp

/-- **The writes of a recovery**: the logged blocks that the header announces, then the cleared
header. -/
theorem recoveryWrites_eq (hlh : getHead (d log.start) = lh)
    (hne : ∀ b ∈ lh, ∀ i, i < lh.length → b.toNat ≠ log.start + (0 + i) + 1) :
    ∃ hb, recoveryWrites lru log d =
      (lh.map BitVec.toNat).zip ((List.range lh.length).map fun i => d (log.start + (0 + i) + 1)) ++
        [(log.start, putHead [] hb)] := by
  have hk : Keeps ∅ (boot d) (readHead lru log (boot d)).2 :=
    (keeps_bread _ _ _).trans (keeps_brelse _ _ _)
  have hread : (readHead lru log (boot d)).1 = { log with lh := lh } := by
    show ({ log with lh := getHead (((boot d).bread lru log.start).data log.start) } : Log) = _
    rw [(clean_boot d log.start).bread.data, hlh]
  have hw : (readHead lru log (boot d)).2.writes = [] := by
    show (((boot d).bread lru log.start).brelse log.start).writes = []
    rw [brelse_writes, bread_writes]
    rfl
  have hc : ∀ i (hi : i < ((List.range lh.length).map fun i => d (log.start + (0 + i) + 1)).length),
      Clean (readHead lru log (boot d)).2 (log.start + (0 + i) + 1)
        ((List.range lh.length).map fun i => d (log.start + (0 + i) + 1))[i] := by
    intro i hi
    rw [getElem_map, getElem_range]
    exact hk.clean _ _ (Set.notMem_empty _) (clean_boot d _)
  obtain ⟨hw1, -⟩ := installFrom_spec lru { log with lh := lh } true (by simp) hc hne
  obtain ⟨hb, hw2⟩ := writeHead_writes lru { log with lh := [] }
    (installTrans lru { log with lh := lh } true (readHead lru log (boot d)).2)
  refine ⟨hb, ?_⟩
  unfold recoveryWrites recoverFromLog
  simp only [hread]
  rw [hw2]
  unfold installTrans
  rw [hw1, hw, nil_append]

/-! ## The disks a crash can leave -/

/-- The header announces no transaction and every block outside the log is as in `f`. -/
structure Clear (log : Log) (f d : Disk) : Prop where
  head : headN (d log.start) = 0
  home : ∀ b, ¬ log.InArea b → d b = f b

/-- The header announces the transaction and the log holds its contents; home blocks of the
transaction are unconstrained. -/
structure Committed (log : Log) (m : Machine) (d : Disk) : Prop where
  head : getHead (d log.start) = log.lh
  logBlock : ∀ i (h : i < log.lh.length), d (log.start + (0 + i) + 1) = m.data log.lh[i].toNat
  home : ∀ b, ¬ log.InArea b → b ∉ log.lh.map BitVec.toNat → d b = m.disk b

theorem headN_cleared (hb : Block) : headN (putHead [] hb) = 0 :=
  headN_putHead hb (zero_le _)

/-- Writing a cleared header keeps a clear disk clear. -/
theorem Clear.update (hs : 0 < log.size) (h : Clear log f d) (hb : Block) :
    Clear log f (update d log.start (putHead [] hb)) := by
  refine ⟨by rw [update_self, headN_cleared], ?_⟩
  intro b hout
  rw [update_of_ne, h.home b hout]
  rintro rfl
  exact hout ⟨le_refl _, by omega⟩

/-- On a clear disk, every prefix of recovery leaves the disk clear. -/
theorem Clear.recovery (hs : 0 < log.size) (h : Clear log f d) (j : Nat) :
    Clear log f (applyWrites ((recoveryWrites lru log d).take j) d) := by
  obtain ⟨hb, hrw⟩ := recoveryWrites_eq lru (getHead_of_zero h.head) (by simp)
  rw [hrw]
  cases j with
  | zero => exact h
  | succ j => simpa using h.update hs hb

theorem transWrites_keys (log : Log) (m : Machine) :
    (transWrites log m).map Prod.fst = log.lh.map BitVec.toNat := by
  simp [transWrites, comp_def]

/-- A write of the transaction goes outside the log. -/
theorem Committable.mem_transWrites (h : Committable log m)
    (hw : w ∈ transWrites log m) : ¬ log.InArea w.1 ∧ w.1 ∈ log.lh.map BitVec.toNat := by
  obtain ⟨b, hb, rfl⟩ := mem_map.mp hw
  exact ⟨h.outside b hb, mem_map_of_mem hb⟩

section

variable (hC : Committable log m) (h : Committed log m d)

include hC h

/-- Any part of the installation keeps a committed disk committed. -/
theorem Committed.install_take (j : Nat) :
    Committed log m (applyWrites ((transWrites log m).take j) d) := by
  have hin : ∀ x, log.InArea x → applyWrites ((transWrites log m).take j) d x = d x := by
    intro x hx
    refine applyWrites_of_notMem fun w hw he => ?_
    exact (hC.mem_transWrites (mem_of_mem_take hw)).1 (he ▸ hx)
  have hfit := hC.fitsLog
  refine ⟨?_, ?_, ?_⟩
  · rw [hin _ ⟨le_refl _, by omega⟩, h.head]
  · intro i hi
    rw [hin _ ⟨by omega, by omega⟩, h.logBlock i hi]
  · intro b hout hb
    rw [applyWrites_of_notMem, h.home b hout hb]
    rintro w hw rfl
    exact hb (hC.mem_transWrites (mem_of_mem_take hw)).2

/-- The whole installation, followed by the cleared header, produces the new contents. -/
theorem Committed.install_all (hb : Block) :
    Clear log (afterTrans log m)
      (applyWrites (transWrites log m ++ [(log.start, putHead [] hb)]) d) := by
  have hfit := hC.fitsLog
  have hnd : ((transWrites log m).map Prod.fst).Nodup := by
    rw [transWrites_keys]
    exact hC.nodup.map (fun _ _ => BitVec.eq_of_toNat_eq)
  rw [applyWrites_append, applyWrites_cons, applyWrites_nil]
  refine ⟨by rw [update_self, headN_cleared], ?_⟩
  intro b hout
  have hne : b ≠ log.start := by
    rintro rfl
    exact hout ⟨le_refl _, by omega⟩
  rw [update_of_ne hne, afterTrans]
  split_ifs with hmem
  · obtain ⟨c, hc, rfl⟩ := mem_map.mp hmem
    exact applyWrites_of_mem (w := (c.toNat, m.data c.toNat)) hnd (mem_map_of_mem hc)
  · rw [applyWrites_of_notMem, h.home b hout hmem]
    rintro w hw rfl
    exact hmem (hC.mem_transWrites hw).2

/-- After the commit point, any prefix of what is left to write — installation and cleared header —
leaves the disk committed or completely installed. -/
theorem Committed.finish_take (hb : Block) (j : Nat) :
    Committed log m (applyWrites ((transWrites log m ++ [(log.start, putHead [] hb)]).take j) d) ∨
    Clear log (afterTrans log m)
      (applyWrites ((transWrites log m ++ [(log.start, putHead [] hb)]).take j) d) := by
  by_cases hj : j ≤ (transWrites log m).length
  · left
    rw [take_append_of_le_length hj]
    exact h.install_take hC j
  · right
    rw [take_of_length_le (by rw [length_append, length_singleton]; omega)]
    exact h.install_all hC hb

/-- On a committed disk, recovery replays the transaction. -/
theorem Committed.recoveryWrites :
    ∃ hb, recoveryWrites lru log d = transWrites log m ++ [(log.start, putHead [] hb)] := by
  obtain ⟨hb, hrw⟩ := recoveryWrites_eq lru h.head fun b hb i hi => hC.ne_logBlock hb hi
  refine ⟨hb, ?_⟩
  have hcs : (List.range log.lh.length).map (fun i => d (log.start + (0 + i) + 1)) =
      log.lh.map fun b => m.data b.toNat := by
    apply ext_getElem
    · simp
    · intro i h1 h2
      rw [getElem_map, getElem_map, getElem_range]
      exact h.logBlock i (by simpa using h2)
  rw [hrw, hcs, zip_map', transWrites]

end

/-- The state of the disk at the commit point: log blocks and header written. -/
theorem committed_at_header (hC : Committable log m) (hb : Block) :
    Committed log m (update
      (applyWrites (logWrites log.start 0 (log.lh.map fun b => m.data b.toNat)) m.disk)
      log.start (putHead log.lh hb)) := by
  have hfit := hC.fitsLog
  refine ⟨by rw [update_self, getHead_putHead hb hC.fitsHeader], ?_, ?_⟩
  · intro i hi
    rw [update_of_ne (by omega)]
    have := applyWrites_logWrites log.start 0 (log.lh.map fun b => m.data b.toNat) m.disk
      (i := i) (by simpa using hi)
    rw [getElem_map] at this
    rwa [zero_add]
  · intro b hout _
    unfold Log.InArea at hout
    rw [update_of_ne (by omega), applyWrites_of_notMem]
    intro w hw
    have := mem_logWrites hw
    rw [length_map] at this
    omega

/-! ## Crash atomicity -/

variable {lru}

/-- **Recovery from a clear disk**, crashed any number of times, keeps every block outside the log. -/
theorem Recovered.of_clear (hs : 0 < log.size)
    (h : Recovered (recoveryWrites lru log) d d') (hd : Clear log f d) : Clear log f d' := by
  refine h.of_invariant (fun d j hI => hI.recovery lru hs j) (fun d hI => ?_) hd
  have := hI.recovery lru hs (recoveryWrites lru log d).length
  rwa [take_length] at this

/-- **Recovery from a committed disk**, crashed any number of times, installs the transaction. -/
theorem Recovered.of_committed (hC : Committable log m)
    (h : Recovered (recoveryWrites lru log) d d')
    (hd : Committed log m d ∨ Clear log (afterTrans log m) d) :
    Clear log (afterTrans log m) d' := by
  have hs : 0 < log.size := by
    have := hC.fitsLog
    omega
  refine h.of_invariant (I := fun d => Committed log m d ∨ Clear log (afterTrans log m) d)
    (fun d j hI => ?_) (fun d hI => ?_) hd
  · rcases hI with hI | hI
    · obtain ⟨hb, hrw⟩ := hI.recoveryWrites lru hC
      rw [hrw]
      exact hI.finish_take hC hb j
    · exact Or.inr (hI.recovery lru hs j)
  · rcases hI with hI | hI
    · obtain ⟨hb, hrw⟩ := hI.recoveryWrites lru hC
      rw [hrw]
      exact hI.install_all hC hb
    · have := hI.recovery lru hs (recoveryWrites lru log d).length
      rwa [take_length] at this

/-- **Crash atomicity of the redo log.** Take any transaction that the log code may commit, on a
disk whose header is clear, and let the machine crash after any number `j` of the block writes of
`commit`.  However often recovery is itself crashed and restarted before it completes, it ends with
a clear header, with every block outside the log as it was before the transaction if no header write
survived the crash, and with every one of them as it is after the transaction otherwise. -/
theorem commit_crash_atomic (lru lru' : Bcache → Nat → Option Nat) (log : Log) (m : Machine)
    (hC : Committable log m) (hclear : headN (m.disk log.start) = 0) (j : Nat) (d' : Disk)
    (hrec : Recovered (recoveryWrites lru' log) (crashDisk lru log m j) d') :
    headN (d' log.start) = 0 ∧
    ((∀ w ∈ (commitWrites lru log m).take j, w.1 ≠ log.start) →
      ∀ b, ¬ log.InArea b → d' b = m.disk b) ∧
    ((∃ w ∈ (commitWrites lru log m).take j, w.1 = log.start) →
      ∀ b, ¬ log.InArea b → d' b = afterTrans log m b) := by
  have hfit := hC.fitsLog
  obtain ⟨hb1, hb2, hcw⟩ := commit_writes lru hC
  set lw := logWrites log.start 0 (log.lh.map fun b => m.data b.toNat) with hlw
  have hlog : ∀ w ∈ lw, log.start < w.1 ∧ w.1 ≤ log.start + log.lh.length := by
    intro w hw
    have := mem_logWrites hw
    rwa [length_map] at this
  unfold crashDisk at hrec
  by_cases hj : j ≤ lw.length
  · -- only log blocks have been written: the old header is still there
    have htake : (commitWrites lru log m).take j = lw.take j := by
      rw [hcw, take_append_of_le_length hj]
    rw [htake] at hrec ⊢
    have hne : ∀ w ∈ lw.take j, w.1 ≠ log.start := by
      intro w hw
      have := hlog w (mem_of_mem_take hw)
      omega
    have hcl : Clear log m.disk (applyWrites (lw.take j) m.disk) := by
      refine ⟨by rw [applyWrites_of_notMem hne, hclear], ?_⟩
      intro b hout
      refine applyWrites_of_notMem fun w hw he => hout ?_
      have := hlog w (mem_of_mem_take hw)
      unfold Log.InArea
      omega
    have hfin := Recovered.of_clear (by omega) hrec hcl
    refine ⟨hfin.head, fun _ => hfin.home, ?_⟩
    rintro ⟨w, hw, he⟩
    exact absurd he (hne w hw)
  · -- the header has been written: the transaction is committed
    have htake : (commitWrites lru log m).take j = lw ++ (log.start, putHead log.lh hb1) ::
        (transWrites log m ++ [(log.start, putHead [] hb2)]).take (j - lw.length - 1) := by
      rw [hcw, take_append, take_of_length_le (by omega),
        show j - lw.length = j - lw.length - 1 + 1 by omega, take_succ_cons]
      rfl
    rw [htake] at hrec ⊢
    rw [applyWrites_append, applyWrites_cons] at hrec
    have hfin := Recovered.of_committed hC hrec
      ((committed_at_header hC hb1).finish_take hC hb2 _)
    refine ⟨hfin.head, ?_, fun _ => hfin.home⟩
    intro hno
    exact absurd rfl (hno (log.start, putHead log.lh hb1) (by simp))

/-- A one-block transaction that crashes right after its header write is replayed by recovery. -/
theorem commit_crash_atomic_one_block :
    let log : Log := ⟨2, 30, 0, true, [50#32]⟩
    let m : Machine := ⟨fun _ _ => 0, fun b => if b = 50 then some ⟨fun _ => 7, 1⟩ else none, []⟩
    let d := crashDisk (fun _ _ => none) log m 2
    let d' := applyWrites (recoveryWrites (fun _ _ => none) log d) d
    headN (d' 2) = 0 ∧ d' 50 = fun _ => 7 := by
  intro log m d d'
  have hC : Committable log m := by
    refine ⟨by simp [log], by simp [log], by simp [log, LOGSIZE, MAXOPBLOCKS], by simp [log], ?_, ?_⟩
    · intro b hb
      obtain rfl : b = 50#32 := by simpa [log] using hb
      simp [Log.InArea, log]
    · intro b hb
      obtain rfl : b = 50#32 := by simpa [log] using hb
      exact ⟨⟨fun _ => 7, 1⟩, rfl, one_pos⟩
  have hclear : headN (m.disk log.start) = 0 := by decide
  have hkeys : ((commitWrites (fun _ _ => none) log m).take 2).map Prod.fst = [3, 2] := rfl
  obtain ⟨h1, -, h2⟩ := commit_crash_atomic (fun _ _ => none) (fun _ _ => none) log m hC hclear 2 d'
    (Recovered.finish d)
  refine ⟨h1, (h2 ?_ 50 (by simp [Log.InArea, log])).trans rfl⟩
  exact mem_map.mp (hkeys ▸ mem_cons_of_mem 3 (mem_singleton_self 2))
end Xv6
