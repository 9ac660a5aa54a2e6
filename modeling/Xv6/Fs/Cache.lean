/-
# Xv6.Fs.Cache — buffers that are not in the log, and a `writei` that fails half-way.

A buffer that is not listed in the log header may be recycled at any time, so it must equal its block
on disk (`Clean`).  `writei` copies from the user directly into the buffer, and lists the block only if
the whole piece could be copied: after a `copyin` that stopped half-way the buffer has bytes that no
call reported.  Whether this matters depends on these bytes.
-/
import Xv6.Fs.Refine

namespace Xv6.Fs

open Lib Lib.Prog Function Nat

variable {fs fs' fs'' : State} {v v' : View} {ip : Ptr} {i off n tot : Nat}

/-! ## Recycling and commits -/

/-- A buffer that is not listed in the log header has what is on disk. -/
def Clean (fs : State) : Prop := ∀ b, b ∉ fs.lh → fs.buf b = fs.disk b

/-- What may happen to the buffers between two calls: one that is not listed is recycled and read again,
or the transaction commits. -/
inductive CacheStep : State → State → Prop
  | evict (fs : State) (b : Nat) (h : b ∉ fs.lh) :
      CacheStep fs { fs with buf := update fs.buf b (fs.disk b) }
  | commit (fs : State) :
      CacheStep fs { fs with disk := fun b => if b ∈ fs.lh then fs.buf b else fs.disk b, lh := [] }

/-- The states that `fs` can become between two calls. -/
def Later : State → State → Prop := Relation.ReflTransGen CacheStep

theorem Clean.step (h : Clean fs) (hs : CacheStep fs fs') :
    Clean fs' ∧ fs'.buf = fs.buf ∧ fs'.sb = fs.sb ∧ fs'.itable = fs.itable := by
  cases hs with
  | evict b hb =>
    have hsame : update fs.buf b (fs.disk b) = fs.buf := by
      rw [← h b hb, update_eq_self]
    refine ⟨fun c hc => ?_, hsame, rfl, rfl⟩
    show update fs.buf b (fs.disk b) c = fs.disk c
    rw [hsame]
    exact h c hc
  | commit =>
    refine ⟨fun c _ => ?_, rfl, rfl, rfl⟩
    show fs.buf c = if c ∈ fs.lh then fs.buf c else fs.disk c
    split
    · rfl
    · rename_i hc
      exact h c hc

/-- In a clean state recycling and commits are not seen. -/
theorem Clean.later (h : Clean fs) (hl : Later fs fs') :
    Clean fs' ∧ fs'.buf = fs.buf ∧ fs'.sb = fs.sb ∧ fs'.itable = fs.itable := by
  induction hl with
  | refl => exact ⟨h, rfl, rfl, rfl⟩
  | tail _ hstep ih =>
    obtain ⟨hc, hbuf, hsb, hit⟩ := ih
    obtain ⟨hc', hbuf', hsb', hit'⟩ := hc.step hstep
    exact ⟨hc', hbuf'.trans hbuf, hsb'.trans hsb, hit'.trans hit⟩

theorem Clean.evolves (h : Clean fs) (e : Evolves o fs fs') : Clean fs' := fun b hb => by
  rw [e.buf b hb, e.disk, h b fun hin => hb (e.lh b hin)]

/-- A view depends on the buffers, the super block and the inode table. -/
theorem Shows.congr (h : Shows fs o v) (hbuf : fs'.buf = fs.buf) (hsb : fs'.sb = fs.sb)
    (hit : fs'.itable = fs.itable) : Shows fs' o v := by
  have hdinode : fs'.dinode = fs.dinode := by
    funext i
    rw [State.dinode, State.dinode, hbuf, hsb]
  refine ⟨fun b hb => ?_, fun i hi => ?_, fun b hb => ?_⟩
  · rw [State.used, hbuf, hsb]
    exact h.used b (hsb ▸ hb)
  · rw [← h.node i (hsb ▸ hi)]
    cases o with
    | none => exact congrFun hdinode i
    | some ip => rw [State.node, State.node, hit, hdinode]
  · rw [hbuf]
    exact h.data b (hsb ▸ hb)

/-! ## What a `writei` leaves -/

/-- Byte `j` of the source was copied although `writei` reports only `tot` bytes: it is mapped, as are
those before it, and goes to the same block as byte `tot`. -/
def Unreported (src : Nat → Option Byte) (off n tot j : Nat) : Prop :=
  tot ≤ j ∧ j < mapped (fun i => (src i).isSome) 0 n ∧ (off + j) / BSIZE = (off + tot) / BSIZE

/-- `readi` of any part of what was there returns the old bytes at every position outside
`[off, off + tot)`. -/
def ReadsOld (ip : Ptr) (i : Nat) (v : View) (off tot : Nat) (fs : State) : Prop :=
  ∀ o m, o + m ≤ v.size i → wp (readi ip (fun _ => true) o m) (fun r _ => ∃ l, r = (some m, l) ∧
    ∀ x, o ≤ x → x < o + m → ¬(off ≤ x ∧ x < off + tot) → l[x - o]? = some (v.byte i x)) fs

/-- The block of byte `x` of inode `i`. -/
def View.block (v : View) (i x : Nat) : Nat := (v.slot i (slotOf (x / BSIZE))).toNat

/-- The unreported bytes do no harm: those below the old size are the old bytes, and those in a block that
is not in the log are the bytes on disk. -/
def Harmless (i : Nat) (src : Nat → Option Byte) (off n tot : Nat) (v v' : View) (fs' : State) : Prop :=
  ∀ j, Unreported src off n tot j → v'.Has i (off + j) →
    (off + j < v.size i → src j = some (v.byte i (off + j))) ∧
    (v'.block i (off + j) ∈ fs'.lh ∨
      src j = some ((fs'.disk (v'.block i (off + j))).bytes ((off + j) % BSIZE)))

/-- What `readi` sees of the old bytes. -/
theorem readsOld_iff (h : Shows fs (some ip) v') (g : Good fs.sb v') (hi : (fs.itable ip).inum = i)
    (ha : v'.Allocated fs.sb i) (hsize : v.size i ≤ v'.size i) :
    ReadsOld ip i v off tot fs ↔
      ∀ x < v.size i, ¬(off ≤ x ∧ x < off + tot) → v'.byte i x = v.byte i x := by
  have hmax := g.size i ha
  rw [MAXFILE_eq, BSIZE_eq] at hmax
  have hread : ∀ o m, o + m ≤ v.size i → ∀ x, o ≤ x → x < o + m →
      (((v'.content i).drop o).take m)[x - o]? = some (v'.byte i x) := fun o m hle x h1 h2 => by
    rw [List.getElem?_take, if_pos (by omega), List.getElem?_drop, show o + (x - o) = x by omega,
      View.content, List.getElem?_map, List.getElem?_range (by omega)]
    rfl
  constructor
  · intro hr x hx hout
    obtain ⟨r, fs1, hrun, l, rfl, hl⟩ := hr x 1 (by omega)
    have hall : ∀ y < 1, (fun _ => true : Nat → Bool) y = true := fun _ _ => rfl
    obtain ⟨r', fs2, hrun', -, hr'⟩ : wp (readi ip _ x 1) _ fs := wp_readi h g hi ha hall
    rw [hrun] at hrun'
    cases hrun'
    rw [if_pos (by omega)] at hr'
    have hval := hl x (le_refl x) (by omega) hout
    rw [(Prod.mk.inj hr').2, hread x 1 (by omega) x (le_refl x) (by omega)] at hval
    exact Option.some_inj.mp hval
  · intro hold o m hle
    refine wp_mono (wp_readi h g hi ha fun _ _ => rfl) ?_
    rintro r fs1 ⟨-, rfl⟩
    rw [if_pos (by omega), show min m (v'.size i - o) = m by omega]
    refine ⟨_, rfl, fun x h1 h2 hout => ?_⟩
    rw [hread o m hle x h1 h2, hold x (by omega) hout]

section

variable {src : Nat → Option Byte} {k : Nat} (w : Wrote ip i src off n fs v tot k fs' v')
  (e : Ended ip i src 0 off n fs tot k fs' v')

include w e

/-- The unreported bytes are the `k` bytes from `tot` on. -/
theorem Ended.unreported_iff :
    Unreported src off n tot j ∧ v'.Has i (off + j) ↔ tot ≤ j ∧ j < tot + k := by
  cases e with
  | all hk _ ht =>
    refine ⟨fun ⟨⟨h1, h2, _⟩, _⟩ => ?_, fun ⟨h1, h2⟩ => by omega⟩
    have := mapped_le (fun i => (src i).isSome) n (i := 0)
    omega
  | full hk _ _ h0 =>
    refine ⟨fun ⟨⟨_, _, h3⟩, hh⟩ => ?_, fun ⟨h1, h2⟩ => by omega⟩
    have hne := hh.2
    rw [h3] at hne
    exact absurd h0 hne
  | fault fs1 _ hs hlt hb hh _ =>
    rw [zero_add] at hs hlt
    have hm : mapped (fun i => (src i).isSome) 0 n = tot + k := by
      refine mapped_eq_of_stop _ n (fun j hj => ?_) ?_ hlt
      · rw [zero_add]
        exact w.mapped j hj
      · rw [zero_add, hs]
        rfl
    rw [Unreported, hm]
    refine ⟨fun ⟨⟨h1, h2, _⟩, _⟩ => ⟨h1, h2⟩, fun ⟨h1, h2⟩ => ?_⟩
    have hdiv : (off + j) / BSIZE = (off + tot) / BSIZE := by
      rw [BSIZE_eq] at hb ⊢
      omega
    refine ⟨⟨h1, h2, hdiv⟩, ?_⟩
    rw [View.Has, hdiv]
    exact hh

/-- The buffers agree with the disk unless an unreported byte differs from the disk. -/
theorem Ended.clean_iff (hclean : Clean fs) : Clean fs' ↔ ∀ j, tot ≤ j → j < tot + k →
    v'.block i (off + j) ∈ fs'.lh ∨
      src j = some ((fs'.disk (v'.block i (off + j))).bytes ((off + j) % BSIZE)) := by
  cases e with
  | all hk he _ | full _ he => exact ⟨fun _ j h1 h2 => by omega, fun _ => hclean.evolves he⟩
  | fault fs1 he hs hlt hb hh he' =>
    rw [zero_add] at he'
    have hclean1 := hclean.evolves he
    have hblock : ∀ j, tot ≤ j → j < tot + k → v'.block i (off + j) = v'.block i (off + tot) ∧
        (off + j) % BSIZE = (off + tot) % BSIZE + (j - tot) := fun j h1 h2 => by
      have hdiv : (off + j) / BSIZE = (off + tot) / BSIZE := by
        rw [BSIZE_eq] at hb ⊢
        omega
      refine ⟨by rw [View.block, hdiv, View.block], ?_⟩
      rw [BSIZE_eq] at hb ⊢
      omega
    change Evolves _ (fs1.scribble (v'.block i (off + tot)) _) fs' at he'
    set c := v'.block i (off + tot) with hc
    have hdisk : fs'.disk = fs1.disk := he'.disk
    -- the buffer that was copied to, unless it is logged since
    have hbuf : c ∉ fs'.lh → fs'.buf c = patch ((off + tot) % BSIZE) k
        (fun j => (src (tot + j)).getD 0) (fs1.disk c) := fun hin => by
      rw [he'.buf c hin]
      show update _ _ _ _ = _
      rw [update_self, hclean1 c fun h => hin (he'.lh c h)]
    constructor
    · intro hc' j h1 h2
      obtain ⟨hb1, hb2⟩ := hblock j h1 h2
      rw [hb1, hb2]
      by_cases hin : c ∈ fs'.lh
      · exact .inl hin
      · refine .inr ?_
        obtain ⟨y, hy⟩ := Option.isSome_iff_exists.mp (w.mapped j h2)
        rw [← hc' c hin, hbuf hin, bytes_patch _ _ _ _ (by omega), if_pos (by omega),
          show tot + ((off + tot) % BSIZE + (j - tot) - (off + tot) % BSIZE) = j by omega, hy]
        rfl
    · intro hall b hin
      by_cases hbc : b = c
      · subst hbc
        rw [hbuf hin, hdisk]
        funext y
        rw [patch]
        split
        · rename_i hy
          rcases hall (tot + (y - (off + tot) % BSIZE)) (by omega) (by omega) with hl | hv
          · rw [(hblock _ (by omega) (by omega)).1] at hl
            exact absurd hl hin
          · obtain ⟨hb1, hb2⟩ := hblock (tot + (y - (off + tot) % BSIZE)) (by omega) (by omega)
            rw [hb1, hb2, hdisk] at hv
            rw [hv, Option.getD_some,
              show (off + tot) % BSIZE + (tot + (y - (off + tot) % BSIZE) - tot) = y by omega,
              Block.bytes, dif_pos y.isLt]
        · rfl
      · rw [he'.buf b hin, hdisk]
        show update _ _ _ _ = _
        rw [update_of_ne hbc]
        exact hclean1 b fun h => hin (he'.lh b h)

end

/-! ## When a failing `writei` changes only what it reports -/

local instance (priority := high) neZero_addrs : NeZero (NDIRECT + 1) := ⟨by decide⟩

/-- A file of three bytes. -/
def abcFile : Dinode := ⟨T_FILE, 0, 0, 1, 3, fun k => if k = 0 then 47 else 0⟩

/-- A disk with that file as inode 2. -/
def abcDisk : Disk := fun b =>
  if b = 47 then fun i => [0x61, 0x62, 0x63].getD i 0
  else rootDisk (setBit 47 mkfsMap) (abcFile.store 128 rootInodes) b

/-- The file is open and locked. -/
def abcOpen : State := mount abcDisk fun _ =>
  { noInode with toDinode := abcFile, inum := 2, ref := 1, valid := true, locked := true }

end Xv6.Fs
