/-
# Xv6.Fs.Content — `readi` and `writei` on the contents of an inode.

Both loop over pieces that end at a block boundary.  The loop of `writei` is described by what every
byte is afterwards, relative to the state it starts from, so that its turns compose; the list of the
new contents is read off at the end.  A `copyin` that fails has copied the bytes before the one that is
not mapped, and the loop stops there.
-/
import Xv6.Fs.Bmap
import Xv6.Lib.Splice

namespace Xv6.Fs

open Lib Lib.Prog List Nat View

variable {dst : Nat → Bool} {x : Nat}

variable {fs fs' fs'' : State} {v v' : View} {ip : Ptr} {i off n tot fuel : Nat}

/-! ## Copying -/

section mapped

variable (acc : Nat → Bool) (m : Nat)

theorem mapped_le : mapped acc i m ≤ m := by
  induction m generalizing i with
  | zero => exact le_refl 0
  | succ m ih =>
    rw [mapped]
    split
    · exact succ_le_succ ih
    · exact zero_le _

theorem acc_of_lt_mapped (hj : j < mapped acc i m) : acc (i + j) = true := by
  induction m generalizing i j with
  | zero => exact absurd hj (not_lt_zero j)
  | succ m ih =>
    rw [mapped] at hj
    split at hj
    · cases j with
      | zero => assumption
      | succ j =>
        rw [show i + (j + 1) = i + 1 + j by omega]
        exact ih (lt_of_succ_lt_succ hj)
    · exact absurd hj (not_lt_zero j)

/-- The byte at which a copy stops is not mapped. -/
theorem acc_mapped (h : mapped acc i m < m) : acc (i + mapped acc i m) = false := by
  induction m generalizing i with
  | zero => exact absurd h (not_lt_zero _)
  | succ m ih =>
    rw [mapped] at h ⊢
    split
    · rename_i hacc
      rw [if_pos hacc] at h
      rw [show i + (mapped acc (i + 1) m + 1) = i + 1 + mapped acc (i + 1) m by omega]
      exact ih (lt_of_succ_lt_succ h)
    · rename_i hacc
      exact Bool.eq_false_iff.mpr hacc

theorem mapped_eq (h : ∀ j < m, acc (i + j) = true) : mapped acc i m = m := by
  by_contra hne
  have hlt : mapped acc i m < m := lt_of_le_of_ne (mapped_le acc m) hne
  have hf := acc_mapped acc m hlt
  rw [h _ hlt] at hf
  cases hf

/-- A copy stops at the first byte that is not mapped. -/
theorem mapped_eq_of_stop (h : ∀ j < k, acc (i + j) = true) (hk : acc (i + k) = false)
    (hlt : k < m) : mapped acc i m = k := by
  rcases lt_trichotomy (mapped acc i m) k with hm | hm | hm
  · have hf := acc_mapped acc m (i := i) (by omega)
    rw [h _ hm] at hf
    cases hf
  · exact hm
  · have ht := acc_of_lt_mapped acc m hm
    rw [hk] at ht
    cases ht

/-- A copy goes on if its first piece was copied whole. -/
theorem mapped_add (m' : Nat) : mapped acc i (m + m') =
    if mapped acc i m = m then m + mapped acc (i + m) m' else mapped acc i m := by
  induction m generalizing i with
  | zero => simp [mapped]
  | succ m ih =>
    rw [succ_add, mapped, mapped, ih]
    by_cases hacc : acc i = true
    · simp only [if_pos hacc, add_right_cancel_iff]
      have harg : i + 1 + m = i + (m + 1) := by omega
      split
      · rw [harg]
        omega
      · rfl
    · simp only [if_neg hacc]
      split
      · omega
      · rfl

end mapped

theorem bytes_patch (o c : Nat) (src : Nat → Byte) (blk : Block) (hx : x < BSIZE) :
    (patch o c src blk).bytes x = if o ≤ x ∧ x < o + c then src (x - o) else blk.bytes x := by
  simp [Block.bytes, hx, patch]

/-- The bytes of a piece that ends in the block of `off`. -/
theorem div_BSIZE_eq (hm : off % BSIZE + m ≤ BSIZE) (h₁ : off ≤ x) (h₂ : x < off + m) :
    x / BSIZE = off / BSIZE := by
  rw [BSIZE_eq] at hm ⊢
  omega

/-! ## `readi` -/

/-- **The loop of `readi`** copies out bytes that have blocks, up to the first that is not mapped, and changes
nothing. -/
theorem wp_readiLoop_stop (hfuel : n ≤ tot + fuel) (htot : tot ≤ n)
    (hhas : ∀ x, off ≤ x → x < off + (n - tot) → (fs.itable ip).toDinode.Has fs.buf x) :
    wp (readiLoop ip dst n fuel tot off) (fun r fs' => fs' = fs ∧
      r = (if mapped dst tot (n - tot) = n - tot then some n else none,
        (range (mapped dst tot (n - tot))).map fun j =>
          (fs.itable ip).toDinode.byteAt fs.buf (off + j))) fs := by
  induction fuel generalizing tot off with
  | zero =>
    obtain rfl : tot = n := by omega
    rw [readiLoop, Nat.sub_self]
    exact wp_pure ⟨rfl, rfl⟩
  | succ fuel ih =>
    rw [readiLoop]
    by_cases hlt : tot < n
    · rw [if_pos hlt]
      obtain ⟨hbn, hs⟩ := hhas off (le_refl _) (by omega)
      refine wp_seq (wp_bmap_of_slot hbn hs) ?_
      rintro a fs1 ⟨rfl, rfl⟩
      rw [if_neg hs]
      refine wp_bind (wp_get ?_)
      dsimp only
      set m := min (n - tot) (BSIZE - off % BSIZE) with hm
      have hpos : 0 < m ∧ off % BSIZE + m ≤ BSIZE ∧ m ≤ n - tot := by
        rw [BSIZE_eq] at hm ⊢
        omega
      have hle := mapped_le dst m (i := tot)
      -- the bytes of this block
      have hpiece : ∀ c ≤ m, ((range c).map fun j => (fs1.buf ((fs1.itable ip).toDinode.slot fs1.buf
          (slotOf (off / BSIZE))).toNat).bytes (off % BSIZE + j)) =
          (range c).map fun j => (fs1.itable ip).toDinode.byteAt fs1.buf (off + j) := by
        intro c hc
        refine map_congr_left fun j hj => ?_
        have hj := mem_range.mp hj
        have hdiv := div_BSIZE_eq hpos.2.1 (le_add_right off j) (by omega)
        have hmod : (off + j) % BSIZE = off % BSIZE + j := by
          rw [BSIZE_eq] at hpos ⊢
          omega
        rw [Dinode.byteAt, hdiv, hmod]
      have hsplit : n - tot = m + (n - (tot + m)) := by omega
      rw [hpiece _ hle]
      by_cases hc : mapped dst tot m < m
      · rw [if_pos hc, hsplit, mapped_add, if_neg hc.ne, if_neg (by omega)]
        exact wp_pure ⟨rfl, rfl⟩
      · have hmap : mapped dst tot m = m := by omega
        rw [if_neg hc, hmap]
        have hrest := @ih (off + m) (tot + m) (by omega) (by omega)
          fun x h1 h2 => hhas x (by omega) (by omega)
        refine wp_seq hrest ?_
        rintro r fs2 ⟨rfl, rfl⟩
        refine wp_pure ⟨rfl, ?_⟩
        rw [hsplit, mapped_add, if_pos hmap, range_add, map_append, map_map]
        refine Prod.ext ?_ ?_
        · simp only [add_left_cancel_iff]
        · refine congrArg (_ ++ ·) (map_congr_left fun j _ => ?_)
          rw [Function.comp_apply, add_assoc]
    · obtain rfl : tot = n := by omega
      rw [if_neg hlt, Nat.sub_self]
      exact wp_pure ⟨rfl, rfl⟩

/-- **`readi`** delivers up to `n` bytes from `off` on, if they have blocks, and stops at the first that is not
mapped. -/
theorem wp_readi_clip_stop (hm : m = min n ((fs.itable ip).size.toNat - off))
    (hoff : off ≤ (fs.itable ip).size.toNat) (hwrap : off ≤ (off + n) % 2 ^ 32)
    (hhas : ∀ x, off ≤ x → x < off + m → (fs.itable ip).toDinode.Has fs.buf x) :
    wp (readi ip dst off n) (fun r fs' => fs' = fs ∧ r = (if mapped dst 0 m = m then some m else none,
      (range (mapped dst 0 m)).map fun j => (fs.itable ip).toDinode.byteAt fs.buf (off + j))) fs := by
  rw [readi]
  refine wp_bind (wp_get ?_)
  have hn : (if off + n > (fs.itable ip).size.toNat then (fs.itable ip).size.toNat - off else n) = m := by
    split <;> omega
  rw [if_neg (by omega), hn]
  exact wp_readiLoop_stop (by omega) (zero_le _) hhas

/-- `readi` to a destination that is mapped. -/
theorem wp_readi_clip (hm : m = min n ((fs.itable ip).size.toNat - off))
    (hdst : ∀ x < n, dst x = true) (hoff : off ≤ (fs.itable ip).size.toNat)
    (hwrap : off ≤ (off + n) % 2 ^ 32)
    (hhas : ∀ x, off ≤ x → x < off + m → (fs.itable ip).toDinode.Has fs.buf x) :
    wp (readi ip dst off n) (fun r fs' => fs' = fs ∧ r = (some m,
      (range m).map fun j => (fs.itable ip).toDinode.byteAt fs.buf (off + j))) fs := by
  have hmap : mapped dst 0 m = m := mapped_eq dst m fun j hj => hdst _ (by omega)
  refine wp_mono (wp_readi_clip_stop hm hoff hwrap hhas) fun r fs' h => ?_
  rwa [if_pos hmap, hmap] at h

/-- **`readi`** of a range that ends within the size and has blocks. -/
theorem wp_readi_range (hdst : ∀ x < n, dst x = true) (hend : off + n ≤ (fs.itable ip).size.toNat)
    (hhas : ∀ x, off ≤ x → x < off + n → (fs.itable ip).toDinode.Has fs.buf x) :
    wp (readi ip dst off n) (fun r fs' => fs' = fs ∧ r = (some n,
      (range n).map fun j => (fs.itable ip).toDinode.byteAt fs.buf (off + j))) fs := by
  have hlt := (fs.itable ip).size.isLt
  exact wp_readi_clip (by omega) hdst (by omega) (by omega) hhas

section

variable (h : Shows fs (some ip) v) (g : Good fs.sb v) (hi : (fs.itable ip).inum = i)
  (ha : v.Allocated fs.sb i)

include h g hi ha

/-- The slots of an inode whose copy is in entry `ip`. -/
theorem Shows.slot_eq (k : Nat) : (fs.itable ip).toDinode.slot fs.buf k = v.slot i k := by
  rw [h.copy hi ha.1]
  exact g.slot_congr ha rfl h.data k

/-- The bytes of an inode whose copy is in entry `ip`. -/
theorem Shows.byteAt_eq (hx : v.Has i x) :
    (fs.itable ip).toDinode.Has fs.buf x ∧ (fs.itable ip).toDinode.byteAt fs.buf x = v.byte i x := by
  rw [Dinode.Has, Dinode.byteAt, h.slot_eq g hi ha, byte,
    h.data _ (g.slot_data ha (slotOf_lt hx.1) hx.2)]
  exact ⟨hx, rfl⟩

/-- **`readi`** delivers the bytes of the contents from `off` on, up to `n` of them. -/
theorem wp_readi (hdst : ∀ x < n, dst x = true) :
    wp (readi ip dst off n) (fun r fs' => fs' = fs ∧
      r = if off ≤ (off + n) % 2 ^ 32 then
        (some (min n (v.size i - off)), ((v.content i).drop off).take n) else (some 0, [])) fs := by
  have hsize : (fs.itable ip).size.toNat = v.size i := by rw [View.size, ← h.copy hi ha.1]
  by_cases hbad : off > v.size i ∨ (off + n) % 2 ^ 32 < off
  · rw [readi]
    refine wp_bind (wp_get ?_)
    rw [hsize, if_pos hbad]
    refine wp_pure ⟨rfl, ?_⟩
    split
    · have hgt : v.size i < off := by omega
      rw [drop_eq_nil_of_le (by rw [length_content]; exact hgt.le), take_nil,
        Nat.sub_eq_zero_of_le hgt.le, Nat.min_zero]
    · rfl
  · have hat : ∀ {x}, x < v.size i → _ := fun hx => h.byteAt_eq g hi ha (g.has ha hx)
    refine wp_mono (wp_readi_clip (m := min n (v.size i - off)) (by rw [hsize]) hdst (by omega) (by omega)
      fun x _ hx => (hat (by omega)).1) ?_
    rintro r fs' ⟨rfl, rfl⟩
    refine ⟨rfl, ?_⟩
    have hlist : ((v.content i).drop off).take n = (range (min n (v.size i - off))).map fun j =>
        (fs'.itable ip).toDinode.byteAt fs'.buf (off + j) := by
      refine ext_getElem (by simp [length_content]) fun x h1 h2 => ?_
      simp only [length_map, length_range] at h2
      rw [getElem_map, getElem_range, (hat (by omega)).2]
      simp [content]
    rw [if_pos (by omega), hlist]

end

/-! ## The loop of `writei` -/

/-- The state after the data of a buffer was changed without `log_write`. -/
def State.scribble (fs : State) (b : Nat) (f : Block → Block) : State :=
  { fs with buf := Function.update fs.buf b (f (fs.buf b)) }

theorem Shows.scribble {f : Block → Block}
    (h : Shows (fs.upd b f) o v) : Shows (fs.scribble b f) o v := by
  refine ⟨h.used, fun i hi => ?_, h.data⟩
  rw [← h.node i hi]
  cases o <;> rfl

/-- Bytes are copied to the block that has byte `off`. -/
theorem Good.byte_patch (g : Good sb v) (ha : v.Allocated sb i)
    (hoff : v.Has i off) (hc : off % BSIZE + c ≤ BSIZE) (src : Nat → Byte)
    (hx : v.Has i x) :
    (v.write (v.slot i (slotOf (off / BSIZE))).toNat (patch (off % BSIZE) c src)).Has i x ∧
      (v.write (v.slot i (slotOf (off / BSIZE))).toNat (patch (off % BSIZE) c src)).byte i x =
        if off ≤ x ∧ x < off + c then src (x - off) else v.byte i x := by
  obtain ⟨hhas, hbyte⟩ := g.byte_write ha hoff.1 hoff.2 hx (patch (off % BSIZE) c src)
  refine ⟨hhas, ?_⟩
  rw [hbyte]
  by_cases hblk : x / BSIZE = off / BSIZE
  · rw [if_pos hblk, bytes_patch _ _ _ _ (mod_lt _ (by decide))]
    have hiff : (off % BSIZE ≤ x % BSIZE ∧ x % BSIZE < off % BSIZE + c) ↔ off ≤ x ∧ x < off + c := by
      rw [BSIZE_eq] at hblk hc ⊢
      omega
    by_cases hin : off ≤ x ∧ x < off + c
    · rw [if_pos (hiff.mpr hin), if_pos hin]
      congr 1
      rw [BSIZE_eq] at hblk ⊢
      omega
    · rw [if_neg (hiff.not.mpr hin), if_neg hin, byte, hblk]
  · rw [if_neg hblk, if_neg]
    rw [BSIZE_eq] at hblk hc
    omega

/-- What the loop of `writei` leaves after it wrote `t` bytes at `off`, from byte `tot` of the source
on, and then `k` bytes more that it does not report. -/
structure Written (ip : Ptr) (i : Nat) (src : Nat → Option Byte) (tot off : Nat) (fs : State)
    (v : View) (t k : Nat) (fs' : State) (v' : View) : Prop where
  frame : Frame (some ip) fs fs'
  after : Shows fs' (some ip) v'
  good : Good fs.sb v'
  node : ∀ j, j ≠ i → v'.dinode j = v.dinode j
  fields : ∃ addrs, v'.dinode i = { v.dinode i with addrs := addrs }
  others : ∀ j < fs.sb.ninodes, j ≠ i → v'.ino j = v.ino j
  keep : ∀ x, v.Has i x → v'.Has i x ∧ v'.byte i x =
    if off ≤ x ∧ x < off + (t + k) then (src (tot + (x - off))).getD 0 else v.byte i x
  new : ∀ x, off ≤ x → x < off + t → v'.Has i x ∧ v'.byte i x = (src (tot + (x - off))).getD 0
  mapped : ∀ j < t + k, (src (tot + j)).isSome

/-- Why the loop ended: all is written, or every block is used, or a byte of the source is not mapped.
In the last case the bytes before it went to a buffer that was not logged. -/
inductive Ended (ip : Ptr) (i : Nat) (src : Nat → Option Byte) (tot off n : Nat) (fs : State)
    (t k : Nat) (fs' : State) (v' : View) : Prop
  | all : k = 0 → Evolves (some ip) fs fs' → tot + t = n → Ended ip i src tot off n fs t k fs' v'
  | full : k = 0 → Evolves (some ip) fs fs' → (∀ b < fs.sb.size, v'.used b = true) →
      v'.slot i (slotOf ((off + t) / BSIZE)) = 0 → Ended ip i src tot off n fs t k fs' v'
  | fault (fs₁ : State) : Evolves (some ip) fs fs₁ → src (tot + (t + k)) = none → tot + (t + k) < n →
      (off + t) % BSIZE + k < BSIZE → v'.Has i (off + t) →
      Evolves (some ip) (fs₁.scribble (v'.slot i (slotOf ((off + t) / BSIZE))).toNat
        (patch ((off + t) % BSIZE) k fun j => (src (tot + t + j)).getD 0)) fs' →
      Ended ip i src tot off n fs t k fs' v'

namespace Written

variable {src : Nat → Option Byte} {t k : Nat}

theorem of_grown (f : Frame (some ip) fs fs') (h : Shows fs' (some ip) v') (g : Good fs.sb v)
    (g' : Good fs.sb v') (ha : v.Allocated fs.sb i) (gr : Grown fs.sb i v v') :
    Written ip i src tot off fs v 0 0 fs' v' where
  frame := f
  after := h
  good := g'
  node := gr.node
  fields := gr.fields
  others j hj _ := gr.ino g hj
  keep x hx := by
    rw [if_neg (by omega)]
    exact gr.byte ha hx
  new x h1 h2 := absurd h2 (by omega)
  mapped j hj := absurd hj (by omega)

/-- One turn: a piece of `c` bytes is copied to the block of `off`, of which `t` are reported. -/
theorem piece (f : Frame (some ip) fs fs') (g : Good fs.sb v) (g' : Good fs.sb v')
    (ha : v.Allocated fs.sb i) (gr : Grown fs.sb i v v') (hoff : v'.Has i off)
    (hc : off % BSIZE + c ≤ BSIZE) (hmap : ∀ j < c, (src (tot + j)).isSome) (htk : t + k = c)
    (h : Shows fs' (some ip) (v'.write (v'.slot i (slotOf (off / BSIZE))).toNat
      (patch (off % BSIZE) c fun j => (src (tot + j)).getD 0)))
    (hnew : ∀ x, off ≤ x → x < off + t → v'.Has i x) :
    Written ip i src tot off fs v t k fs' (v'.write (v'.slot i (slotOf (off / BSIZE))).toNat
      (patch (off % BSIZE) c fun j => (src (tot + j)).getD 0)) := by
  have ha' := gr.allocated.mpr ha
  have hbyte := fun x hx => g'.byte_patch (x := x) ha' hoff hc (fun j => (src (tot + j)).getD 0) hx
  refine ⟨f, h, g'.write ha' (slotOf_lt hoff.1) hoff.2 (slotOf_ne _) _, gr.node, gr.fields,
    fun j hj hji => ?_, fun x hx => ?_, fun x h1 h2 => ?_, fun j hj => hmap j (by omega)⟩
  · rw [g'.ino_write ha' (slotOf_lt hoff.1) hoff.2 (slotOf_ne _) hj hji]
    exact gr.ino g hj
  · obtain ⟨hhas, hsame⟩ := gr.byte ha hx
    obtain ⟨hh, hb⟩ := hbyte x hhas
    refine ⟨hh, ?_⟩
    rw [hb, htk, hsame]
  · obtain ⟨hh, hb⟩ := hbyte x (hnew x h1 h2)
    refine ⟨hh, ?_⟩
    rw [hb, if_pos ⟨h1, by omega⟩]

/-- A turn that wrote `m` bytes, and then the rest of the loop. -/
theorem trans (w : Written ip i src tot off fs v m 0 fs' v')
    (w' : Written ip i src (tot + m) (off + m) fs' v' t k fs'' v'') :
    Written ip i src tot off fs v (m + t) k fs'' v'' := by
  have hsb := w.frame.sb
  refine ⟨w.frame.trans w'.frame, w'.after, hsb ▸ w'.good, fun j hj => (w'.node j hj).trans (w.node j hj),
    ?_, fun j hj hji => (w'.others j (by rw [hsb]; exact hj) hji).trans (w.others j hj hji), fun x hx => ?_,
    fun x h1 h2 => ?_, fun j hj => ?_⟩
  · obtain ⟨a, ha⟩ := w.fields
    obtain ⟨a', ha'⟩ := w'.fields
    exact ⟨a', by rw [ha', ha]⟩
  · obtain ⟨hh, hb⟩ := w.keep x hx
    obtain ⟨hh', hb'⟩ := w'.keep x hh
    refine ⟨hh', ?_⟩
    rw [hb', hb]
    by_cases h1 : off + m ≤ x ∧ x < off + m + (t + k)
    · rw [if_pos h1, if_pos (by omega), show tot + m + (x - (off + m)) = tot + (x - off) by omega]
    · rw [if_neg h1]
      by_cases h2 : off ≤ x ∧ x < off + (m + 0)
      · rw [if_pos h2, if_pos (by omega)]
      · rw [if_neg h2, if_neg (by omega)]
  · by_cases hx : x < off + m
    · obtain ⟨hh, hb⟩ := w.new x h1 hx
      obtain ⟨hh', hb'⟩ := w'.keep x hh
      refine ⟨hh', ?_⟩
      rw [hb', if_neg (by omega), hb]
    · obtain ⟨hh, hb⟩ := w'.new x (by omega) (by omega)
      refine ⟨hh, ?_⟩
      rw [hb, show tot + m + (x - (off + m)) = tot + (x - off) by omega]
  · by_cases hjm : j < m
    · exact w.mapped j (by omega)
    · have := w'.mapped (j - m) (by omega)
      rwa [show tot + m + (j - m) = tot + j by omega] at this

end Written

theorem Ended.trans {src : Nat → Option Byte} (e : Evolves (some ip) fs fs')
    (h : Ended ip i src (tot + m) (off + m) n fs' t k fs'' v) :
    Ended ip i src tot off n fs (m + t) k fs'' v := by
  cases h with
  | all hk he ht => exact .all hk (e.trans he) (by omega)
  | full hk he hf h0 => exact .full hk (e.trans he) (e.sb ▸ hf) (by rwa [← add_assoc])
  | fault fs1 he hs hlt hb hh hfs =>
    rw [add_assoc off] at hb hh hfs
    rw [add_assoc tot m t] at hfs
    refine .fault fs1 (e.trans he) ?_ (by omega) hb hh hfs
    rwa [show tot + (m + t + k) = tot + m + (t + k) by omega]

/-- What is done after the loop. -/
theorem Ended.after {src : Nat → Option Byte}
    (h : Ended ip i src tot off n fs t k fs' v) (e : Evolves (some ip) fs' fs'')
    (hused : v'.used = v.used) (hslot : ∀ s, v'.slot i s = v.slot i s) :
    Ended ip i src tot off n fs t k fs'' v' := by
  cases h with
  | all hk he ht => exact .all hk (he.trans e) ht
  | full hk he hf h0 => exact .full hk (he.trans e) (hused ▸ hf) (by rwa [hslot])
  | fault fs1 he hs hlt hb hh hfs =>
    refine .fault fs1 he hs hlt hb ⟨hh.1, ?_⟩ ?_
    · rw [hslot]
      exact hh.2
    · rw [hslot]
      exact hfs.trans e

/-- **The loop of `writei`** returns, whatever the source, if there is room below `MAXFILE`. -/
theorem wp_writeiLoop (h : Shows fs (some ip) v) (g : Good fs.sb v) (hi : (fs.itable ip).inum = i)
    (ha : v.Allocated fs.sb i) (src : Nat → Option Byte) (hfuel : n ≤ tot + fuel) (htot : tot ≤ n)
    (hmax : off + (n - tot) ≤ MAXFILE * BSIZE) :
    wp (writeiLoop ip src n fuel tot off) (fun r fs' => ∃ t k v', r = tot + t ∧ tot + t ≤ n ∧
      Written ip i src tot off fs v t k fs' v' ∧ Ended ip i src tot off n fs t k fs' v' ∧
      Filled fs.sb i (spanSlots off (n - tot)) v v') fs := by
  induction fuel generalizing fs v tot off with
  | zero =>
    obtain rfl : tot = n := by omega
    exact wp_pure ⟨0, 0, v, rfl, le_refl _,
      .of_grown (Evolves.refl _ _).frame h g g ha (Grown.refl ..), .all rfl (Evolves.refl _ _) rfl,
      Filled.refl ..⟩
  | succ fuel ih =>
    rw [writeiLoop]
    by_cases hlt : tot < n
    · rw [if_pos hlt]
      have hbn : off / BSIZE < MAXFILE := by
        rw [BSIZE_eq] at hmax ⊢
        omega
      refine wp_seq (wp_bmap h g hi ha hbn) ?_
      rintro a fs1 ⟨v1, m1⟩
      have e1 := m1.evolves
      have hfill : Filled fs.sb i (spanSlots off (n - tot)) v v1 :=
        m1.filled.mono (slotsFor_subset_span le_rfl (by omega))
      rcases m1.result with ⟨rfl, h0, hall⟩ | ⟨ha0, rfl⟩
      · -- out of disk space
        rw [if_pos rfl]
        exact wp_pure ⟨0, 0, v1, rfl, htot, .of_grown e1.frame m1.after g m1.good ha m1.grown,
          .full rfl e1 hall h0, hfill⟩
      rw [if_neg ha0]
      have hoff : v1.Has i off := ⟨hbn, ha0⟩
      have ha1 := m1.grown.allocated.mpr ha
      set a := v1.slot i (slotOf (off / BSIZE)) with hself
      have hdata : fs1.sb.Data a.toNat := by
        rw [e1.sb]
        exact m1.good.slot_data ha1 (slotOf_lt hbn) hoff.2
      have hlay : fs1.sb.Layout := by rw [e1.sb]; exact g.layout
      dsimp only
      set m := min (n - tot) (BSIZE - off % BSIZE) with hm
      have hpos : 0 < m ∧ off % BSIZE + m ≤ BSIZE ∧ m ≤ n - tot := by
        rw [BSIZE_eq] at hm ⊢
        omega
      rw [copyinData]
      set c := mapped (fun j => (src j).isSome) tot m with hc
      have hcm : c ≤ m := mapped_le _ m
      have hmap : ∀ j < c, (src (tot + j)).isSome := fun j hj => acc_of_lt_mapped _ m hj
      set f := patch (off % BSIZE) c fun j => (src (tot + j)).getD 0 with hf
      have hshow : Shows (fs1.upd a.toNat f) (some ip) (v1.write a.toNat f) :=
        m1.after.write hlay hdata f
      refine wp_bind (wp_bind (wp_modify (wp_pure ?_)))
      by_cases hcm' : c = m
      · -- the whole piece is copied
        rw [if_pos (decide_eq_true hcm')]
        refine wp_bind (wp_modify ?_)
        show wp _ _ (fs1.upd a.toNat f)
        have e2 : Evolves (some ip) fs (fs1.upd a.toNat f) := e1.trans (Evolves.upd ..).of_none
        have hhas : ∀ x, off ≤ x → x < off + c → v1.Has i x := fun x h1 h2 => by
          rw [View.Has, div_BSIZE_eq hpos.2.1 h1 (by omega)]
          exact hoff
        have w := Written.piece (t := c) (k := 0) e2.frame g m1.good ha m1.grown hoff (by omega) hmap
          (add_zero c) hshow hhas
        have hi2 : ((fs1.upd a.toNat f).itable ip).inum = i := by rw [e2.inum, hi]
        rw [← hcm']
        refine wp_mono (ih w.after (e2.sb ▸ w.good) hi2 (e2.sb ▸ ⟨ha.1, ?_⟩) (by omega) (by omega)
          (by omega)) ?_
        · obtain ⟨addrs, hn⟩ := w.fields
          rw [hn]
          exact ha.2
        · rintro r fs' ⟨t, k, v', rfl, hle, w', hend, hfill'⟩
          refine ⟨c + t, k, v', by omega, by omega, w.trans w', hend.trans e2, ?_⟩
          rw [e2.sb] at hfill'
          exact (hfill.write m1.good ha (slotOf_lt hbn) ha0 (slotOf_ne _) f).trans
            (hfill'.mono (spanSlots_subset_span (by omega) (by omega)))
      · -- a byte of the piece is not mapped
        rw [if_neg (by simpa using hcm')]
        have hstop : src (tot + c) = none := by
          have := acc_mapped (fun j => (src j).isSome) m (show c < m by omega)
          simpa using this
        have hfr : Frame (some ip) fs (fs1.scribble a.toNat f) := ⟨e1.sb, e1.others, e1.entry⟩
        have w := Written.piece (t := 0) (k := c) hfr g m1.good ha m1.grown hoff (by omega) hmap
          (zero_add c) hshow.scribble fun x h1 h2 => absurd h2 (by omega)
        have hslot : (v1.write a.toNat f).slot i (slotOf (off / BSIZE)) = a :=
          m1.good.slot_write ha1 (slotOf_lt hbn) ha0 (slotOf_ne _) ha1 f _
        refine wp_pure ⟨0, c, _, rfl, htot, w, .fault fs1 e1 ?_ (by omega) ?_ ⟨hbn, ?_⟩ ?_,
          hfill.write m1.good ha (slotOf_lt hbn) ha0 (slotOf_ne _) f⟩
        · rwa [zero_add]
        · rw [add_zero]
          omega
        · rw [add_zero, hslot]
          exact ha0
        · rw [add_zero, hslot]
          exact Evolves.refl _ _
    · obtain rfl : tot = n := by omega
      rw [if_neg hlt]
      exact wp_pure ⟨0, 0, v, rfl, le_refl _,
        .of_grown (Evolves.refl _ _).frame h g g ha (Grown.refl ..), .all rfl (Evolves.refl _ _) rfl,
        Filled.refl ..⟩

/-! ## `writei` -/

/-- The bytes that a source has at `0, …, m - 1`. -/
def sourceBytes (src : Nat → Option Byte) (m : Nat) : List Byte :=
  (List.range m).map fun j => (src j).getD 0

/-- The ranges that `writei` refuses: they start past the end, wrap around, or exceed the largest file. -/
def BadRange (v : View) (i off n : Nat) : Prop :=
  off > v.size i ∨ (off + n) % 2 ^ 32 < off ∨ off + n > MAXFILE * BSIZE

/-- What a `writei` that returns `tot` leaves: `tot` bytes are written at `off`, and `k` bytes more that
it does not report; the size covers the reported ones. -/
structure Wrote (ip : Ptr) (i : Nat) (src : Nat → Option Byte) (off n : Nat) (fs : State) (v : View)
    (tot k : Nat) (fs' : State) (v' : View) : Prop where
  le : tot ≤ n
  frame : Frame (some ip) fs fs'
  after : Shows fs' none v'
  good : Good fs.sb v'
  copy : (fs'.itable ip).toDinode = v'.dinode i
  node : ∀ j, j ≠ i → v'.dinode j = v.dinode j
  others : ∀ j < fs.sb.ninodes, j ≠ i → v'.ino j = v.ino j
  self : v'.ino i = { v.ino i with
    data := (splice (v.content i) off (sourceBytes src (tot + k))).take (max (v.size i) (off + tot)) }
  mapped : ∀ j < tot + k, (src j).isSome
  filled : Filled fs.sb i (spanSlots off n) v v'

section

variable {src : Nat → Option Byte} {k : Nat} (w : Wrote ip i src off n fs v tot k fs' v')
  (ha : v.Allocated fs.sb i) (hoff : off ≤ v.size i)

include w ha

theorem Wrote.allocated : v'.Allocated fs.sb i := by
  refine ⟨ha.1, ?_⟩
  rw [← ino_type, w.self]
  exact (ino_type v i).symm ▸ ha.2

theorem Wrote.content_eq : v'.content i =
    (splice (v.content i) off (sourceBytes src (tot + k))).take (max (v.size i) (off + tot)) := by
  have hself := w.self
  rw [ino_of_ne_zero (w.allocated ha).2] at hself
  exact congrArg Ino.data hself

include hoff

theorem Wrote.size_eq : v'.size i = max (v.size i) (off + tot) := by
  rw [← length_content, w.content_eq ha, length_take,
    length_splice (by rwa [length_content]), length_content, sourceBytes, length_map,
    length_range]
  omega

/-- A byte that was there before. -/
theorem Wrote.byte_old (hx : x < v.size i) : v'.byte i x =
    if off ≤ x ∧ x < off + (tot + k) then (src (x - off)).getD 0 else v.byte i x := by
  have hnew : (v'.content i)[x]? = some (v'.byte i x) := by
    rw [content, getElem?_map, getElem?_range (by rw [w.size_eq ha hoff]; omega)]
    rfl
  have hold : (v.content i)[x]? = some (v.byte i x) := by
    rw [content, getElem?_map, getElem?_range hx]
    rfl
  rw [w.content_eq ha, getElem?_take, if_pos (by omega),
    getElem?_splice (by rwa [length_content]), sourceBytes, length_map, length_range,
    hold] at hnew
  split
  · rename_i hin
    rw [if_pos hin, getElem?_map, getElem?_range (by omega)] at hnew
    exact (Option.some_inj.mp hnew).symm
  · rename_i hin
    rw [if_neg hin] at hnew
    exact (Option.some_inj.mp hnew).symm

end

/-- The size that `writei` leaves. -/
def Dinode.setSize (n : Dinode) (size : Nat) : Dinode := { n with size := BitVec.ofNat 32 size }

/-- The contents after the loop, up to the new size. -/
theorem Written.content {src : Nat → Option Byte}
    (w : Written ip i src 0 off fs v t k fs' v') (g : Good fs.sb v) (ha : v.Allocated fs.sb i)
    (hoff : off ≤ v.size i) (hs : s = max (v.size i) (off + t)) :
    (range s).map (v'.byte i) =
      (splice (v.content i) off (sourceBytes src (t + k))).take s := by
  have hlen : off ≤ (v.content i).length := by rwa [length_content]
  refine ext_getElem? fun x => ?_
  rw [getElem?_map, getElem?_take]
  by_cases hx : x < s
  · rw [if_pos hx, getElem?_range hx, getElem?_splice hlen, sourceBytes, length_map,
      length_range, Option.map_some]
    by_cases hin : off ≤ x ∧ x < off + (t + k)
    · have hbyte : v'.byte i x = (src (x - off)).getD 0 := by
        by_cases hold : x < v.size i
        · rw [(w.keep x (g.has ha hold)).2, if_pos hin, zero_add]
        · rw [(w.new x hin.1 (by omega)).2, zero_add]
      rw [if_pos hin, getElem?_map, getElem?_range (by omega), hbyte]
      rfl
    · have hold : x < v.size i := by omega
      rw [if_neg hin, (w.keep x (g.has ha hold)).2, if_neg hin, View.content, getElem?_map,
        getElem?_range hold]
      rfl
  · rw [if_neg hx, getElem?_eq_none (by rw [length_range]; omega)]
    rfl

theorem View.setNode_dinode (v : View) (i : Nat) : v.setNode i (v.dinode i) = v := by
  rw [setNode, Function.update_eq_self]

theorem View.slot_setNode {n : Dinode} (haddrs : n.addrs = (v.dinode i).addrs) (k : Nat) :
    (v.setNode i n).slot i k = v.slot i k := by
  rw [slot, dinode_setNode_self, slot]
  exact Dinode.slot_congr haddrs (fun _ => rfl) k

section

variable (h : Shows fs (some ip) v) (g : Good fs.sb v) (hi : (fs.itable ip).inum = i)
  (ha : v.Allocated fs.sb i)

include g hi ha

/-- The size is set and the dinode written. -/
theorem Written.wp_iupdate {src : Nat → Option Byte}
    (w : Written ip i src 0 off fs v t k fs' v') (e : Ended ip i src 0 off n fs t k fs' v')
    (hfill : Filled fs.sb i (spanSlots off n) v v') (hle : t ≤ n) (hoff : off ≤ v.size i) (hmax : off + n ≤ MAXFILE * BSIZE)
    (hs : s = max (v.size i) (off + t)) (hn : n' = (v'.dinode i).setSize s)
    (e₁ : Evolves (some ip) fs' fs₁) (h₁ : Shows fs₁ (some ip) (v'.setNode i n')) :
    wp (iupdate ip) (fun _ fs'' => ∃ v'', Wrote ip i src off n fs v t k fs'' v'' ∧
      Ended ip i src 0 off n fs t k fs'' v'') fs₁ := by
  have hsize : n'.size.toNat = s := by
    have := g.size i ha
    rw [hn, Dinode.setSize, BitVec.toNat_ofNat, mod_eq_of_lt]
    rw [MAXFILE_eq, BSIZE_eq] at *
    omega
  have haddrs : n'.addrs = (v'.dinode i).addrs := by rw [hn, Dinode.setSize]
  obtain ⟨addrs, hfields⟩ := w.fields
  have ha' : v'.Allocated fs.sb i := ⟨ha.1, by rw [hfields]; exact ha.2⟩
  have hhas : ∀ x < s, v'.Has i x := fun x hx => by
    by_cases hold : x < v.size i
    · exact (w.keep x (g.has ha hold)).1
    · exact (w.new x (by omega) (by omega)).1
  have hgood : Good fs.sb (v'.setNode i n') := by
    refine w.good.setNode ha' haddrs ?_ ?_ fun bn hbn => ?_
    · rw [hn, Dinode.setSize]
      exact ha'.2
    · have := g.size i ha
      omega
    · have := (hhas _ (by rwa [← hsize])).2
      rwa [Nat.mul_div_cancel _ (by decide)] at this
  have f1 := w.frame.trans e₁.frame
  refine wp_mono (Fs.wp_iupdate h₁ (f1.sb ▸ g.layout) ?_) ?_
  · rw [f1.inum, f1.sb, hi]
    exact ha.1
  rintro _ fs'' ⟨e₂, h₂⟩
  refine ⟨v'.setNode i n', ⟨hle, f1.trans e₂.of_none.frame, h₂, hgood, ?_, fun j hj => ?_,
    fun j hj hji => ?_, ?_, fun j hj => ?_, hfill.setNode haddrs (by rw [hn, Dinode.setSize])⟩,
    e.after (e₁.trans e₂.of_none) rfl (slot_setNode haddrs)⟩
  · rw [e₂.itable]
    exact h₁.copy (by rw [f1.inum, hi]) (f1.sb ▸ ha.1)
  · rw [dinode_setNode_ne hj]
    exact w.node j hj
  · rw [ino_setNode_ne hji]
    exact w.others j hj hji
  · rw [ino_of_ne_zero ha.2, ino_of_ne_zero, content_setNode haddrs, hsize,
      w.content g ha hoff hs, dinode_setNode_self, hn, hfields]
    · simp only [Dinode.setSize, hs]
    · rw [dinode_setNode_self, hn, Dinode.setSize]
      exact ha'.2
  · have := w.mapped j hj
    rwa [zero_add] at this

include h

/-- **`writei`** returns -1 and changes nothing if the range is bad; otherwise it writes, and says why
it stopped. -/
theorem wp_writei (src : Nat → Option Byte) :
    wp (writei ip src off n) (fun r fs' =>
      (BadRange v i off n ∧ r = none ∧ fs' = fs) ∨
      (¬BadRange v i off n ∧ ∃ tot k v', r = some tot ∧ Wrote ip i src off n fs v tot k fs' v' ∧
        Ended ip i src 0 off n fs tot k fs' v')) fs := by
  have hsize : (fs.itable ip).size.toNat = v.size i := by rw [View.size, ← h.copy hi ha.1]
  rw [writei]
  refine wp_bind (wp_get ?_)
  dsimp only
  rw [hsize]
  by_cases hbad : off > v.size i ∨ (off + n) % 2 ^ 32 < off
  · rw [if_pos hbad]
    exact wp_pure (.inl ⟨by rw [BadRange]; omega, rfl, rfl⟩)
  by_cases hmax : off + n > MAXFILE * BSIZE
  · rw [if_neg hbad, if_pos hmax]
    exact wp_pure (.inl ⟨by rw [BadRange]; omega, rfl, rfl⟩)
  have hok : ¬BadRange v i off n := by
    rw [BadRange]
    omega
  rw [if_neg hbad, if_neg hmax]
  refine wp_seq (wp_writeiLoop h g hi ha src (by omega) (zero_le n) (by omega)) ?_
  rintro r fs1 ⟨tot, k, v1, rfl, hle, w, e, hfill⟩
  rw [Nat.sub_zero] at hfill
  rw [zero_add] at hle ⊢
  obtain ⟨addrs, hfields⟩ := w.fields
  have hi1 : (fs1.itable ip).inum = i := by rw [w.frame.inum, hi]
  have hcopy : (fs1.itable ip).toDinode = v1.dinode i := w.after.copy hi1 (w.frame.sb ▸ ha.1)
  have hsize1 : (fs1.itable ip).size.toNat = v.size i := by rw [hcopy, hfields, View.size]
  refine wp_bind (wp_get ?_)
  rw [hsize1]
  by_cases hgrow : off + tot > v.size i
  · rw [if_pos hgrow]
    have hn : { (fs1.itable ip).toDinode with size := BitVec.ofNat 32 (off + tot) } =
        (v1.dinode i).setSize (off + tot) := by rw [hcopy, Dinode.setSize]
    refine wp_bind (wp_setInode (wp_seq (w.wp_iupdate g hi ha e hfill hle (by omega) (by omega)
      (show off + tot = _ by omega) rfl (Evolves.setEntry fs1 ip _) ?_) ?_))
    · exact hn ▸ w.after.setEntry hi1 _
    · rintro _ fs2 ⟨v2, w2, e2⟩
      exact wp_pure (.inr ⟨hok, tot, k, v2, rfl, w2, e2⟩)
  · rw [if_neg hgrow]
    have hn : (v1.dinode i).setSize (v.size i) = v1.dinode i := by
      rw [Dinode.setSize, View.size, hfields, BitVec.ofNat_toNat, BitVec.setWidth_eq]
    refine wp_bind (wp_pure (wp_seq (w.wp_iupdate g hi ha e hfill hle (by omega) (by omega)
      (show v.size i = _ by omega) rfl (Evolves.refl _ _) ?_) ?_))
    · rw [hn, setNode_dinode]
      exact w.after
    · rintro _ fs2 ⟨v2, w2, e2⟩
      exact wp_pure (.inr ⟨hok, tot, k, v2, rfl, w2, e2⟩)

end

end Xv6.Fs
