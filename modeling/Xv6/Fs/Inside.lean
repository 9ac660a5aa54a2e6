/-
# Xv6.Fs.Inside — the file system inside a call.

Between the functions that a call uses, every valid copy in the inode table is the dinode of its inode
(`Settled`), and the file system can be read as a map from inode numbers to inodes with contents
(`State.ino`).  `Inside` keeps the books of a call: the references that it holds on top of those that were
there when it began, and the locks.  Here are the specifications, in these terms, of the functions of `fs.c`
that change the inode table only.
-/
import Xv6.Fs.Lookup
import Xv6.Fs.Refine

namespace Xv6.Fs

open Lib Lib.Prog Multiset

variable {fs fs' fs'' fs₀ : State} {v : View} {ip : Ptr} {i j : Nat}

/-! ## The state as a map of inodes -/

/-- Inode `i` and its contents. -/
def State.ino (fs : State) (i : Nat) : Ino := if i < fs.sb.ninodes then fs.view.ino i else .free

theorem ino_eq (hi : i < fs.sb.ninodes) : fs.ino i = fs.view.ino i := if_pos hi

theorem ino_type_eq (hi : i < fs.sb.ninodes) : (fs.ino i).type = (fs.dinode i).type := by
  rw [ino_eq hi, View.ino_type]
  rfl

theorem lt_of_ino (h : (fs.ino i).type ≠ 0) : i < fs.sb.ninodes := by
  by_contra hge
  rw [State.ino, if_neg hge] at h
  exact h rfl

theorem allocated_iff : fs.view.Allocated fs.sb i ↔ (fs.ino i).type ≠ 0 := by
  constructor
  · rintro ⟨hi, ht⟩
    rw [ino_type_eq hi]
    exact ht
  · intro ht
    have hi := lt_of_ino ht
    rw [ino_type_eq hi] at ht
    exact ⟨hi, ht⟩

/-- A free inode has no other fields. -/
theorem ino_of_type_zero (h : (fs.ino i).type = 0) : fs.ino i = .free := by
  by_cases hi : i < fs.sb.ninodes
  · rw [ino_type_eq hi] at h
    rw [ino_eq hi]
    exact if_pos h
  · exact if_neg hi

theorem ino_nlink (h : (fs.ino i).type ≠ 0) : (fs.ino i).nlink = (fs.dinode i).nlink := by
  have ha := allocated_iff.mpr h
  rw [ino_eq ha.1, View.ino_of_ne_zero ha.2]
  rfl

theorem ino_size (h : (fs.ino i).type ≠ 0) : (fs.ino i).data.length = (fs.dinode i).size.toNat := by
  have ha := allocated_iff.mpr h
  rw [ino_eq ha.1, View.ino_of_ne_zero ha.2]
  exact View.length_content fs.view i

/-- What a view says about the state that shows it. -/
theorem Shows.slot_view (h : Shows fs none v) (g : Good fs.sb v) (ha : v.Allocated fs.sb i) (k : Nat) :
    fs.view.slot i k = v.slot i k := by
  have hn : fs.dinode i = v.dinode i := h.node i ha.1
  exact g.slot_congr ha (congrArg Dinode.addrs hn) h.data k

theorem Shows.allocated_view (h : Shows fs none v) : fs.view.Allocated fs.sb i ↔ v.Allocated fs.sb i := by
  constructor <;> rintro ⟨hi, ht⟩ <;> refine ⟨hi, ?_⟩
  · exact h.node i hi ▸ ht
  · have hn : fs.dinode i = v.dinode i := h.node i hi
    show (fs.dinode i).type ≠ 0
    rw [hn]
    exact ht

/-- **The view of the state** may stand for any view that it shows. -/
theorem Shows.good_view (h : Shows fs none v) (g : Good fs.sb v) : Good fs.sb fs.view := by
  have hsize : ∀ {i}, v.Allocated fs.sb i → fs.view.size i = v.size i := fun ha =>
    congrArg (fun n : Dinode => n.size.toNat) (h.node _ ha.1)
  refine ⟨g.layout, g.owns.congr (fun b hb => ?_) fun s => ?_, fun b hb => ?_, fun i hi bn hbn => ?_,
    fun i hi => ?_⟩
  · show fs.used b = true ↔ _
    rw [h.used b hb.2]
  · exact View.own_congr h.allocated_view fun ha _ => h.slot_view g ha s.2
  · show fs.used b = true
    by_cases hlt : b < fs.sb.size
    · rw [h.used b hlt, g.reserved b hb]
    · have h1 := g.layout.datastart
      have h2 := g.layout.size
      omega
  · have ha := h.allocated_view.mp hi
    rw [h.slot_view g ha]
    exact g.full i ha bn (hsize ha ▸ hbn)
  · have ha := h.allocated_view.mp hi
    rw [hsize ha]
    exact g.size i ha

/-- The inodes of a view are those of the state that shows it. -/
theorem Shows.ino_view (h : Shows fs none v) (g : Good fs.sb v) (hi : i < fs.sb.ninodes) :
    fs.ino i = v.ino i := by
  rw [ino_eq hi]
  refine g.ino_congr hi (h.node i hi) (fun ha k => h.slot_view g ha k) fun ha k hk _ hs => ?_
  exact h.data _ (g.slot_data ha hk hs)

/-- Of the state only the inode table has changed. -/
def TableOnly (fs fs' : State) : Prop := fs' = { fs with itable := fs'.itable }

namespace TableOnly

theorem refl (fs : State) : TableOnly fs fs := rfl

theorem trans (h : TableOnly fs fs') (h' : TableOnly fs' fs'') : TableOnly fs fs'' := by
  rw [TableOnly] at h h' ⊢
  rw [h', h]

theorem setEntry (fs : State) (ip : Ptr) (x : Inode) : TableOnly fs (fs.setEntry ip x) := rfl

variable (h : TableOnly fs fs')

include h

theorem sb : fs'.sb = fs.sb := by rw [h]
theorem buf : fs'.buf = fs.buf := by rw [h]
theorem lh : fs'.lh = fs.lh := by rw [h]
theorem disk : fs'.disk = fs.disk := by rw [h]
theorem view : fs'.view = fs.view := by rw [h]; rfl
theorem dinode (i : Nat) : fs'.dinode i = fs.dinode i := by rw [h]; rfl
theorem ino : fs'.ino = fs.ino := by rw [h]; rfl

end TableOnly

/-! ## Books of a call -/

/-- Every valid copy in the table is the dinode of an allocated inode, and no inode has two entries. -/
structure Settled (fs : State) : Prop where
  good : Good fs.sb fs.view
  uniq : ∀ {p q}, 0 < (fs.itable p).ref → 0 < (fs.itable q).ref →
    (fs.itable p).inum = (fs.itable q).inum → p = q
  inum : ∀ {p}, 0 < (fs.itable p).ref → (fs.itable p).inum < fs.sb.ninodes
  copy : ∀ {p}, 0 < (fs.itable p).ref → (fs.itable p).valid = true →
    (fs.itable p).toDinode = fs.dinode (fs.itable p).inum
  alive : ∀ {p}, 0 < (fs.itable p).ref → (fs.itable p).valid = true →
    (fs.ino (fs.itable p).inum).type ≠ 0

/-- The references to entry `p` among those held. -/
def refsTo (held : Multiset (Ptr × Nat)) (p : Ptr) : Nat := (held.map Prod.fst).count p

@[simp] theorem refsTo_zero (p : Ptr) : refsTo 0 p = 0 := rfl

theorem refsTo_cons (ip : Ptr) (i : Nat) (held : Multiset (Ptr × Nat)) (p : Ptr) :
    refsTo ((ip, i) ::ₘ held) p = refsTo held p + if p = ip then 1 else 0 := by
  rw [refsTo, map_cons, count_cons]
  rfl

/-- **Inside a call** that began in state `fs₀`: it holds the references `held`, each to an entry with the
inode number that goes with it, and the locks of the entries `lk`. -/
structure Inside (fs₀ : State) (held : Multiset (Ptr × Nat)) (lk : Finset Ptr) (fs : State) : Prop
    extends Settled fs where
  sb : fs.sb = fs₀.sb
  ref : ∀ p, (fs.itable p).ref = (fs₀.itable p).ref + refsTo held p
  held : ∀ x ∈ held, (fs.itable x.1).inum = x.2
  kept : ∀ p, 0 < (fs₀.itable p).ref → (fs.itable p).inum = (fs₀.itable p).inum ∧
    ((fs₀.itable p).valid = true → (fs.itable p).valid = true)
  locked : ∀ p, (fs.itable p).locked = true ↔ p ∈ lk
  valid : ∀ p ∈ lk, 0 < (fs.itable p).ref ∧ (fs.itable p).valid = true

/-- The beginning of a call. -/
theorem Settled.enter (h : Settled fs) (hun : ∀ p, (fs.itable p).locked = false) : Inside fs 0 ∅ fs where
  toSettled := h
  sb := rfl
  ref p := by rw [refsTo_zero, Nat.add_zero]
  held x hx := absurd hx (notMem_zero x)
  kept p _ := ⟨rfl, id⟩
  locked p := by simp [hun p]
  valid p hp := absurd hp (Finset.notMem_empty p)

section Entry

variable {held held' : Multiset (Ptr × Nat)} {lk lk' : Finset Ptr} {x : Inode} {E : String → Prop}

/-- Entry `ip` is written. -/
theorem Settled.setEntry (h : Settled fs) (hinum : 0 < x.ref → x.inum < fs.sb.ninodes)
    (hcopy : 0 < x.ref → x.valid = true → x.toDinode = fs.dinode x.inum ∧ (fs.ino x.inum).type ≠ 0)
    (huniq : 0 < x.ref → ∀ q, q ≠ ip → 0 < (fs.itable q).ref → (fs.itable q).inum ≠ x.inum) :
    Settled (fs.setEntry ip x) := by
  have hne : ∀ {q}, q ≠ ip → (fs.setEntry ip x).itable q = fs.itable q := fun hq => setEntry_ne hq
  have hself := setEntry_self fs ip x
  refine ⟨h.good, fun {p q} hp hq he => ?_, fun {p} hp => ?_, fun {p} hp hv => ?_, fun {p} hp hv => ?_⟩
  · by_cases hpi : p = ip <;> by_cases hqi : q = ip
    · rw [hpi, hqi]
    · rw [hpi, hself] at hp he
      rw [hne hqi] at hq he
      exact absurd he.symm (huniq hp q hqi hq)
    · rw [hqi, hself] at hq he
      rw [hne hpi] at hp he
      exact absurd he (huniq hq p hpi hp)
    · rw [hne hpi] at hp he
      rw [hne hqi] at hq he
      exact h.uniq hp hq he
  · by_cases hpi : p = ip
    · rw [hpi, hself] at hp ⊢
      exact hinum hp
    · rw [hne hpi] at hp ⊢
      exact h.inum hp
  · by_cases hpi : p = ip
    · rw [hpi, hself] at hp hv ⊢
      exact (hcopy hp hv).1
    · rw [hne hpi] at hp hv ⊢
      exact h.copy hp hv
  · by_cases hpi : p = ip
    · rw [hpi, hself] at hp hv ⊢
      exact (hcopy hp hv).2
    · rw [hne hpi] at hp hv ⊢
      exact h.alive hp hv

/-- The count or the lock of an entry that is in use is written. -/
theorem Settled.setRef (h : Settled fs) (hpos : 0 < (fs.itable ip).ref) (ref : Nat) (locked : Bool) :
    Settled (fs.setEntry ip { fs.itable ip with ref := ref, locked := locked }) :=
  h.setEntry (fun _ => h.inum hpos) (fun _ hv => ⟨h.copy hpos hv, h.alive hpos hv⟩)
    fun _ _ hq hqr he => hq (h.uniq hqr hpos he)

section

variable (h : Inside fs₀ held lk fs)

include h

/-- Entry `ip` is written inside a call. -/
theorem Inside.setEntry (hs : Settled (fs.setEntry ip x))
    (href : x.ref = (fs₀.itable ip).ref + refsTo held' ip)
    (hrefs : ∀ p, p ≠ ip → refsTo held' p = refsTo held p)
    (hheld : ∀ y ∈ held', if y.1 = ip then x.inum = y.2 else y ∈ held)
    (hkept : 0 < (fs₀.itable ip).ref → x.inum = (fs.itable ip).inum ∧
      ((fs.itable ip).valid = true → x.valid = true))
    (hlocked : x.locked = true ↔ ip ∈ lk') (hlk : ∀ p, p ≠ ip → (p ∈ lk' ↔ p ∈ lk))
    (hvalid : ip ∈ lk' → 0 < x.ref ∧ x.valid = true) :
    Inside fs₀ held' lk' (fs.setEntry ip x) := by
  have hne : ∀ {q}, q ≠ ip → (fs.setEntry ip x).itable q = fs.itable q := fun hq => setEntry_ne hq
  have hself := setEntry_self fs ip x
  refine ⟨hs, h.sb, fun p => ?_, fun y hy => ?_, fun p hp => ?_, fun p => ?_, fun p hp => ?_⟩
  · by_cases hpi : p = ip
    · rw [hpi, hself, href]
    · rw [hne hpi, hrefs p hpi, h.ref]
  · have hy := hheld y hy
    by_cases hyi : y.1 = ip
    · rw [if_pos hyi] at hy
      rw [hyi, hself, hy]
    · rw [if_neg hyi] at hy
      rw [hne hyi, h.held y hy]
  · by_cases hpi : p = ip
    · subst hpi
      rw [hself]
      obtain ⟨h1, h2⟩ := hkept hp
      obtain ⟨k1, k2⟩ := h.kept p hp
      exact ⟨h1.trans k1, fun hv => h2 (k2 hv)⟩
    · rw [hne hpi]
      exact h.kept p hp
  · by_cases hpi : p = ip
    · rw [hpi, hself, hlocked]
    · rw [hne hpi, hlk p hpi, h.locked]
  · by_cases hpi : p = ip
    · rw [hpi, hself]
      exact hvalid (hpi ▸ hp)
    · rw [hne hpi]
      exact h.valid p ((hlk p hpi).mp hp)

/-- A reference that is held, when entry `ip` is written. -/
theorem Inside.held_same (hx : x.inum = (fs.itable ip).inum)
    (hy : y ∈ held) : if y.1 = ip then x.inum = y.2 else y ∈ held := by
  split
  · rename_i hyi
    rw [hx, ← hyi, h.held y hy]
  · exact hy

end

/-! ## References and locks -/

/-- The entries of the table that are not in use. -/
def State.room (fs : State) : Nat := (Finset.univ.filter fun p => (fs.itable p).ref = 0).card

theorem mem_of_refsTo (h : 0 < refsTo held p) : p ∈ held.map Prod.fst :=
  count_pos.mp h

section

variable (h : Inside fs₀ held lk fs)

include h

/-- A call fills at most one entry with each reference. -/
theorem Inside.room_le (hfull : ∀ p, 0 < (fs.itable p).ref) : fs₀.room ≤ held.card := by
  have hsub : (Finset.univ.filter fun p => (fs₀.itable p).ref = 0) ⊆ (held.map Prod.fst).toFinset := by
    intro p hp
    have hp0 := (Finset.mem_filter.mp hp).2
    have hpos := hfull p
    rw [h.ref, hp0, Nat.zero_add] at hpos
    exact mem_toFinset.mpr (mem_of_refsTo hpos)
  calc fs₀.room ≤ (held.map Prod.fst).toFinset.card := Finset.card_le_card hsub
    _ ≤ (held.map Prod.fst).card := toFinset_card_le _
    _ = held.card := card_map _ _

/-- What `iget` returned is one more reference. -/
theorem Inside.got (hi : i < fs.sb.ninodes) (g : Got fs i ip fs') :
    Inside fs₀ ((ip, i) ::ₘ held) lk fs' := by
  obtain ⟨rfl, hfound⟩ := g
  have hrefs : ∀ p, p ≠ ip → refsTo ((ip, i) ::ₘ held) p = refsTo held p := fun p hp => by
    rw [refsTo_cons, if_neg hp, Nat.add_zero]
  have hheld : ∀ {x : Inode}, x.inum = i → ∀ y ∈ (ip, i) ::ₘ held, (∀ z ∈ held, z.1 = ip → z.2 = i) →
      if y.1 = ip then x.inum = y.2 else y ∈ held := by
    intro x hx y hy hz
    rcases mem_cons.mp hy with rfl | hy
    · rw [if_pos rfl, hx]
    · split
      · rename_i hyi
        rw [hx, hz y hy hyi]
      · exact hy
  rcases hfound with ⟨hr, hin⟩ | ⟨hr, hother⟩
  · have hgot : (fs.itable ip).got i = { fs.itable ip with ref := (fs.itable ip).ref + 1 } :=
      if_neg (by omega)
    rw [hgot]
    refine h.setEntry (h.setRef hr ..) ?_ hrefs (fun y hy => hheld hin y hy ?_)
      (fun _ => ⟨rfl, id⟩) (h.locked ip) (fun _ _ => Iff.rfl) fun hin => ⟨Nat.succ_pos _, (h.valid ip hin).2⟩
    · show (fs.itable ip).ref + 1 = _
      rw [h.ref, refsTo_cons, if_pos rfl]
      rfl
    · rintro z hz rfl
      rw [← h.held z hz, hin]
  · have hgot : (fs.itable ip).got i = { fs.itable ip with inum := i, ref := 1, valid := false } :=
      if_pos hr
    have hzero : (fs₀.itable ip).ref = 0 ∧ refsTo held ip = 0 := by
      have := h.ref ip
      omega
    have hnot : ip ∉ lk := fun hin => by
      have := (h.valid ip hin).1
      omega
    rw [hgot]
    refine h.setEntry (h.toSettled.setEntry (fun _ => hi) (fun _ hv => (nomatch hv))
      fun _ q hq hqr => hother q hqr) ?_ hrefs (fun y hy => hheld rfl y hy ?_)
      (fun hpos => absurd hpos (by omega)) (h.locked ip) (fun _ _ => Iff.rfl) fun hin => absurd hin hnot
    · show 1 = _
      rw [refsTo_cons, if_pos rfl, hzero.1, hzero.2]
    · rintro z hz rfl
      have : 0 < refsTo held z.1 := count_pos.mpr (mem_map_of_mem _ hz)
      omega

omit h in
theorem Got.tableOnly (g : Got fs i ip fs') : TableOnly fs fs' := by
  rw [g.after]
  exact TableOnly.setEntry ..

/-- **`iget`** takes a reference. -/
theorem Inside.wpe_iget (hi : i < fs.sb.ninodes) (hE : fs₀.room ≤ held.card → E "iget: no inodes") :
    wpe E (iget i) (fun ip fs' => Inside fs₀ ((ip, i) ::ₘ held) lk fs' ∧ TableOnly fs fs') fs :=
  wpe_mono (Fs.wpe_iget fun hfull => hE (h.room_le fun p => (hfull p).1)) fun _ _ hgot =>
    ⟨h.got hi hgot, hgot.tableOnly⟩

end

/-- Entry `ip` is in use, for inode `i`. -/
def State.Refers (fs : State) (ip : Ptr) (i : Nat) : Prop := 0 < (fs.itable ip).ref ∧ (fs.itable ip).inum = i

section

variable (h : Inside fs₀ held lk fs)

include h

theorem Inside.refers (hx : (ip, i) ∈ held) : fs.Refers ip i := by
  refine ⟨?_, h.held _ hx⟩
  have : 0 < refsTo held ip := count_pos.mpr (mem_map_of_mem Prod.fst hx)
  rw [h.ref]
  omega

/-- An entry that was in use before the call. -/
theorem Inside.refers_base (hr : fs₀.Refers ip i) : fs.Refers ip i := by
  refine ⟨?_, (h.kept ip hr.1).1.trans hr.2⟩
  have := hr.1
  rw [h.ref]
  omega

/-- **`idup`** takes another reference. -/
theorem Inside.wpe_idup (hr : fs.Refers ip i) :
    wpe E (idup ip) (fun r fs' => r = ip ∧ Inside fs₀ ((ip, i) ::ₘ held) lk fs' ∧ TableOnly fs fs') fs := by
  obtain ⟨hpos, hin⟩ := hr
  rw [idup]
  refine wpe_bind (wpe_setInode (wpe_pure ⟨rfl, ?_, TableOnly.setEntry ..⟩))
  refine h.setEntry (h.setRef hpos ..) ?_
    (fun p hp => by rw [refsTo_cons, if_neg hp, Nat.add_zero]) (fun y hy => ?_) (fun _ => ⟨rfl, id⟩)
    (h.locked ip) (fun _ _ => Iff.rfl) fun hlk => ⟨Nat.succ_pos _, (h.valid ip hlk).2⟩
  · show (fs.itable ip).ref + 1 = _
    rw [h.ref, refsTo_cons, if_pos rfl]
    rfl
  · rcases mem_cons.mp hy with rfl | hy
    · rw [if_pos rfl]
      exact hin
    · exact h.held_same rfl hy

/-- **`ilock`** takes the lock, and the copy is valid then. -/
theorem Inside.wpe_ilock (hr : fs.Refers ip i) (hun : ip ∉ lk)
    (hE : (fs.ino i).type = 0 → E "ilock: no type") :
    wpe E (ilock ip) (fun _ fs' => Inside fs₀ held (insert ip lk) fs' ∧ TableOnly fs fs' ∧
      (fs.ino i).type ≠ 0) fs := by
  obtain ⟨hpos, rfl⟩ := hr
  have hlt := h.inum hpos
  have hfree : (fs.itable ip).locked = false := by
    cases hl : (fs.itable ip).locked with
    | false => rfl
    | true => exact absurd ((h.locked ip).mp hl) hun
  refine wpe_mono (Fs.wpe_ilock hpos hfree fun _ ht => hE (by rw [ino_type_eq hlt, ht])) ?_
  rintro - _ ⟨rfl, htype⟩
  have halive : (fs.ino (fs.itable ip).inum).type ≠ 0 := by
    cases hv : (fs.itable ip).valid with
    | true => exact h.alive hpos hv
    | false =>
      rw [ino_type_eq hlt]
      exact htype hv
  refine ⟨?_, TableOnly.setEntry .., halive⟩
  refine h.setEntry (h.toSettled.setEntry (fun _ => hlt) (fun _ _ => ⟨?_, halive⟩)
    fun _ q hq hqr he => hq (h.uniq hqr hpos he)) (h.ref ip) (fun _ _ => rfl)
    (fun _ hy => h.held_same rfl hy) (fun _ => ⟨rfl, fun _ => rfl⟩) (by simp [Inode.lock])
    (fun p hp => by simp [hp]) fun _ => ⟨hpos, rfl⟩
  show (if (fs.itable ip).valid = true then (fs.itable ip).toDinode else _) = fs.dinode (fs.itable ip).inum
  split
  · rename_i hv
    exact h.copy hpos hv
  · rfl

/-- **`iunlock`** gives a lock back. -/
theorem Inside.wpe_iunlock (hlk : ip ∈ lk) :
    wpe E (iunlock ip) (fun _ fs' => Inside fs₀ held (lk.erase ip) fs' ∧ TableOnly fs fs') fs := by
  have hpos := (h.valid ip hlk).1
  refine wpe_mono (Fs.wpe_iunlock hpos ((h.locked ip).mpr hlk)) ?_
  rintro - _ rfl
  refine ⟨?_, TableOnly.setEntry ..⟩
  exact h.setEntry (h.setRef hpos ..) (h.ref ip) (fun _ _ => rfl) (fun _ hy => h.held_same rfl hy)
    (fun _ => ⟨rfl, id⟩) (by simp) (fun p hp => by simp [hp])
    fun hin => absurd rfl (Finset.ne_of_mem_erase hin)

end

/-- **`iput`** of an inode that has links, or to which there are other references. -/
theorem Inside.wpe_iput (h : Inside fs₀ ((ip, i) ::ₘ held) lk fs) (hun : ip ∉ lk)
    (hkeep : (fs.ino i).nlink ≠ 0 ∨ 0 < (fs₀.itable ip).ref + refsTo held ip) :
    wpe E (iput ip) (fun _ fs' => Inside fs₀ held lk fs' ∧ TableOnly fs fs') fs := by
  obtain ⟨hpos, hin⟩ := h.refers (mem_cons_self _ _)
  have href := h.ref ip
  rw [refsTo_cons, if_pos rfl] at href
  refine wpe_mono (Fs.wpe_iput_keep ?_) ?_
  · rintro ⟨hone, hv, hz⟩
    rcases hkeep with hk | hk
    · refine hk ?_
      rw [← hin, ino_nlink (h.alive hpos hv), ← h.copy hpos hv, hz]
    · omega
  rintro - _ rfl
  refine ⟨?_, TableOnly.setEntry ..⟩
  refine h.setEntry (h.setRef hpos ..) ?_
    (fun p hp => by rw [refsTo_cons, if_neg hp, Nat.add_zero])
    (fun _ hy => h.held_same rfl (mem_cons_of_mem hy)) (fun _ => ⟨rfl, id⟩)
    (h.locked ip) (fun _ _ => Iff.rfl) fun hlk => absurd hlk hun
  show (fs.itable ip).ref - 1 = _
  omega

/-- **`iunlockput`**, in the same way. -/
theorem Inside.wpe_iunlockput (h : Inside fs₀ ((ip, i) ::ₘ held) lk fs) (hlk : ip ∈ lk)
    (hkeep : (fs.ino i).nlink ≠ 0 ∨ 0 < (fs₀.itable ip).ref + refsTo held ip) :
    wpe E (iunlockput ip) (fun _ fs' => Inside fs₀ held (lk.erase ip) fs' ∧ TableOnly fs fs') fs := by
  rw [iunlockput]
  refine wpe_seq (h.wpe_iunlock hlk) ?_
  rintro - fs₁ ⟨hin, ht⟩
  refine wpe_mono (hin.wpe_iput (Finset.notMem_erase _ _) (ht.ino ▸ hkeep)) ?_
  rintro - fs₂ ⟨hin2, ht2⟩
  exact ⟨hin2, ht.trans ht2⟩

end Entry

/-! ## The state after boot -/

theorem booted_ref (hp : 0 < (booted.itable p).ref) : p = rootPtr := by
  by_contra hne
  have : booted.itable p = noInode := if_neg hne
  rw [this] at hp
  exact absurd hp (by decide)

theorem booted_dinode : booted.dinode ROOTINO = rootDinode :=
  (dinode_mount (by decide)).trans (Dinode.load_store _ _ (by decide))

theorem booted_settled : Settled booted where
  good := booted_good
  uniq hp hq _ := (booted_ref hp).trans (booted_ref hq).symm
  inum hp := by
    rw [booted_ref hp]
    decide
  copy hp hv := by
    rw [booted_ref hp] at hv
    exact absurd hv (by decide)
  alive hp hv := by
    rw [booted_ref hp] at hv
    exact absurd hv (by decide)

theorem booted_unlocked (p : Ptr) : (booted.itable p).locked = false := by
  by_cases hp : p = rootPtr
  · rw [hp]
    rfl
  · have : booted.itable p = noInode := if_neg hp
    rw [this]
    rfl

theorem booted_root_type : (booted.ino ROOTINO).type = T_DIR := by
  rw [ino_type_eq (by decide), booted_dinode]
  rfl

/-- The root directory is the only inode. -/
theorem booted_free (hne : i ≠ ROOTINO) : booted.ino i = .free := by
  apply ino_of_type_zero
  by_cases hi : i < mkfsSb.ninodes
  · have hload : booted.dinode i = .fresh 0 := by
      refine (dinode_mount hi).trans ?_
      split
      · next hlt =>
        rw [rootInodes, Dinode.load_store_of_disjoint, Dinode.load_zeroBlock]
        · rw [IPB_eq] at hlt
          rw [DINODE, BSIZE_eq]
          omega
        · have hne : i ≠ 1 := hne
          rw [DINODE]
          omega
      · rfl
    rw [ino_type_eq hi, hload]
    rfl
  · rw [State.ino, if_neg (show ¬i < booted.sb.ninodes from hi)]
    rfl

theorem booted_root_size : (booted.ino ROOTINO).data.length = 1024 := by
  rw [ino_size (by rw [booted_root_type]; decide), booted_dinode]
  rfl

end Xv6.Fs
