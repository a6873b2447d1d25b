import Xv6Cow.Fs.Iput

/-! # Contents of inodes

`readi` of an inode without holes changes nothing and returns a slice of its contents.  `writei`
stores a prefix of its source: it stops at the end of a block when no block can be had, or at the
first byte of the source that cannot be read.  A write inside the contents from a source that can be
read is always complete. -/

namespace Xv6Cow.Fs

open Log (Block Disk)
open Function (update update_self update_of_ne update_eq_self update_idem)

variable {s s' t u : FsState} {D F : Set ℕ} {lent bal : ℕ → ℤ} {n : Dinode} {i j k m b c o off tot : ℕ}

/-! ### Slices -/

/-- The bytes of an inode from `off` on. -/
def bytesAt (d : Disk) (n : Dinode) (off m : ℕ) : List UInt8 :=
  (List.range m).map (fun x => byteAt d n (off + x))

@[simp] theorem length_bytesAt {d : Disk} : (bytesAt d n off m).length = m := by simp [bytesAt]

theorem bytesAt_add (d : Disk) (n : Dinode) (off a b : ℕ) :
    bytesAt d n off (a + b) = bytesAt d n off a ++ bytesAt d n (off + a) b := by
  unfold bytesAt
  rw [List.range_add, List.map_append, List.map_map]
  congr 1
  exact List.map_congr_left (fun x _ => by simp [Nat.add_assoc])

theorem data_slice (d : Disk) (h : off + m ≤ n.size) : ((nodeOf d n).data.drop off).take m =
    bytesAt d n off m := by
  apply List.ext_getElem
  · simp only [List.length_take, List.length_drop, length_data, length_bytesAt]
    omega
  · intro x h1 h2
    simp [nodeOf, bytesAt]

theorem read_block (d : Disk) (n : Dinode) (h : m ≤ BSIZE - off % BSIZE) :
    (d (slot d n (off / BSIZE))).read (off % BSIZE) m = bytesAt d n off m := by
  unfold Bytes.read bytesAt byteAt
  apply List.map_congr_left
  intro x hx
  rw [List.mem_range] at hx
  unfold BSIZE at *
  have hdiv : (off + x) / 1024 = off / 1024 := by omega
  have hmod : (off + x) % 1024 = off % 1024 + x := by omega
  rw [hdiv, hmod]

/-! ### `readi` -/

theorem readiLoop_run (h : Mid s s.dinode ∅) (hc : Cached s k i) (hi : Alloc s.sb s.dinode i)
    (n room : ℕ) : ∀ (fuel off tot : ℕ) (acc : List UInt8), n - tot ≤ fuel → tot ≤ n →
      off + (n - tot) ≤ (s.dinode i).size →
    ∃ r bs, readiLoop k n room fuel off tot acc s = .ok ((r, bs), s) ∧
      (n ≤ room → r = n ∧ bs = acc ++ bytesAt s.disk (s.dinode i) off (n - tot)) := by
  intro fuel
  induction fuel with
  | zero =>
      intro off tot acc hfuel htot _
      refine ⟨tot, acc, rfl, fun _ => ?_⟩
      have : n - tot = 0 := by omega
      rw [this]
      exact ⟨by omega, by simp [bytesAt]⟩
  | succ fuel ih =>
      intro off tot acc hfuel htot hsize
      by_cases hlt : tot < n
      · have hfull := h.full i hi
        have hoff : off < (s.dinode i).size := by omega
        have h0 := hfull.byte hoff
        have hmax : off / BSIZE < MAXFILE := Nat.div_lt_of_lt_mul (by
          have := hfull.size
          rw [Nat.mul_comm] at this
          omega)
        have hbmap := bmap_hit (h.din hc) hmax h0
        have hm : min (n - tot) (BSIZE - off % BSIZE) ≤ BSIZE - off % BSIZE := Nat.min_le_right _ _
        have hpos : 0 < min (n - tot) (BSIZE - off % BSIZE) := by
          have : off % BSIZE < BSIZE := Nat.mod_lt _ (by decide)
          omega
        by_cases hroom : room < tot + min (n - tot) (BSIZE - off % BSIZE)
        · refine ⟨-1, acc, ?_, fun hr => by omega⟩
          simp [readiLoop, if_pos hlt, bind, StateT.bind, Except.bind, hbmap, if_neg h0, get,
            getThe, MonadStateOf.get, StateT.get, pure, Except.pure, if_pos hroom]
          rfl
        · obtain ⟨r, bs, hrun, hres⟩ := ih (off + min (n - tot) (BSIZE - off % BSIZE))
            (tot + min (n - tot) (BSIZE - off % BSIZE))
            (acc ++ (s.disk (slot s.disk (s.dinode i) (off / BSIZE))).read (off % BSIZE)
              (min (n - tot) (BSIZE - off % BSIZE)))
            (by omega) (by omega) (by omega)
          refine ⟨r, bs, ?_, fun hr => ⟨(hres hr).1, ?_⟩⟩
          · simp only [readiLoop, if_pos hlt, bind, StateT.bind, Except.bind, hbmap, if_neg h0, get,
              getThe, MonadStateOf.get, StateT.get, pure, Except.pure, if_neg hroom]
            exact hrun
          · rw [(hres hr).2, read_block s.disk (s.dinode i) hm, List.append_assoc, ← bytesAt_add]
            congr 2
            omega
      · refine ⟨tot, acc, ?_, fun _ => ?_⟩
        · simp only [readiLoop, if_neg hlt]
          rfl
        · have : n - tot = 0 := by omega
          rw [this]
          exact ⟨by omega, by simp [bytesAt]⟩

/-- A read of `n` bytes at `off` of a byte array, with the bounds of 32-bit arithmetic: what there
is of the bytes asked for, and nothing if the offset is past the end or the sum of the offset and
the length wraps round. -/
def readOf (data : List UInt8) (off n : ℕ) : ℤ × List UInt8 :=
  if data.length < off ∨ 2 ^ 32 ≤ off + n then (0, [])
    else (((data.drop off).take n).length, (data.drop off).take n)

/-- **`readi`** reads the contents of the inode as a byte array. -/
theorem readi_mid (h : Mid s s.dinode ∅) (hc : Cached s k i) (hi : Alloc s.sb s.dinode i)
    (off n room : ℕ) (hn : n < 2 ^ 32) : ∃ r bs, readi k off n room s = .ok ((r, bs), s) ∧
      (n ≤ room → (r, bs) = readOf (s.node i).data off n) := by
  have hlen : (s.node i).data.length = (s.dinode i).size := length_data _ _
  have hsize : (s.dinode i).size < 2 ^ 32 := (h.fits i).size
  have hrun : readi k off n room s =
      (if (s.dinode i).size < off ∨ (off + n) % 2 ^ 32 < off then pure (0, [])
      else readiLoop k (if (s.dinode i).size < (off + n) % 2 ^ 32 then (s.dinode i).size - off else n)
        room (if (s.dinode i).size < (off + n) % 2 ^ 32 then (s.dinode i).size - off else n) off 0
        [] : FsM _) s := by
    rw [← h.din hc]
    rfl
  rw [hrun]
  by_cases hbad : (s.dinode i).size < off ∨ (off + n) % 2 ^ 32 < off
  · refine ⟨0, [], by rw [if_pos hbad]; rfl, fun _ => ?_⟩
    rw [readOf, if_pos (by rw [hlen]; omega)]
  · -- the sum does not wrap round
    rw [if_neg hbad]
    have hgood : ¬ ((s.node i).data.length < off ∨ 2 ^ 32 ≤ off + n) := by omega
    by_cases hclip : (s.dinode i).size < (off + n) % 2 ^ 32
    · rw [if_pos hclip]
      obtain ⟨r, bs, hloop, hres⟩ :=
        readiLoop_run h hc hi ((s.dinode i).size - off) room ((s.dinode i).size - off) off 0 []
          (by omega) (by omega) (by omega)
      refine ⟨r, bs, hloop, fun hr => ?_⟩
      have hall : ((s.node i).data.drop off).take n = ((s.node i).data.drop off).take
          ((s.dinode i).size - off) := by
        rw [List.take_of_length_le (by rw [List.length_drop]; omega),
          List.take_of_length_le (by rw [List.length_drop]; omega)]
      obtain ⟨rfl, rfl⟩ := hres (by omega)
      rw [readOf, if_neg hgood, hall, List.nil_append, Nat.sub_zero, show (s.node i).data =
        (nodeOf s.disk (s.dinode i)).data from rfl, data_slice s.disk (by omega), length_bytesAt]
    · rw [if_neg hclip]
      have hin : off + n ≤ (s.dinode i).size := by omega
      obtain ⟨r, bs, hloop, hres⟩ :=
        readiLoop_run h hc hi n room n off 0 [] (by omega) (by omega) (by omega)
      refine ⟨r, bs, hloop, fun hr => ?_⟩
      obtain ⟨rfl, rfl⟩ := hres hr
      rw [readOf, if_neg hgood, List.nil_append, Nat.sub_zero, show (s.node i).data =
        (nodeOf s.disk (s.dinode i)).data from rfl, data_slice s.disk hin, length_bytesAt]

theorem readi_run (h : Inv s lent bal F) (hc : Cached s k i) (off n room : ℕ) (hn : n < 2 ^ 32) :
    ∃ r bs, readi k off n room s = .ok ((r, bs), s) ∧
      (off + n ≤ (s.node i).data.length → n ≤ room → r = n ∧
        bs = ((s.node i).data.drop off).take n) := by
  obtain ⟨r, bs, hrun, hres⟩ := readi_mid h.mid hc (h.alloc hc) off n room hn
  refine ⟨r, bs, hrun, fun hin hroom => ?_⟩
  have hlen : (s.node i).data.length = (s.dinode i).size := length_data _ _
  have hsize := (h.mid.fits i).size
  have heq := hres hroom
  rw [readOf, if_neg (by omega), Prod.mk.injEq] at heq
  refine ⟨?_, heq.2⟩
  rw [heq.1, List.length_take, List.length_drop, Nat.min_eq_left (by omega)]

/-! ### Writing a data block -/

section data
variable {N : ℕ → Dinode} {z : Block}

/-- The blocks of other places are not block `slot s.disk (N i) j`. -/
theorem slot_ne (h : Mid s N D) (hi : Alloc s.sb N i) (h0 : slot s.disk (N i) j ≠ 0) {m l : ℕ}
    (hm : Alloc s.sb N m) (hne : m ≠ i ∨ l ≠ j) : slot s.disk (N m) l ≠ slot s.disk (N i) j := by
  intro heq
  have := slot_inj h.owned hi hm h0 heq.symm
  cases hne with
  | inl hne => exact hne this.1.symm
  | inr hne => exact hne this.2.symm

theorem slot_data (h : Mid s N D) (hi : Alloc s.sb N i) (hj : j ≠ MAXFILE)
    (h0 : slot s.disk (N i) j ≠ 0) {m : ℕ} (hm : Alloc s.sb N m) (l : ℕ) :
    slot (update s.disk (slot s.disk (N i) j) z) (N m) l = slot s.disk (N m) l := by
  apply slot_congr
  intro hm0
  apply update_of_ne
  have := slot_ne h hi h0 hm (l := MAXFILE) (Or.inr hj.symm)
  rwa [slot_maxfile] at this

/-- A data block of inode `i` is written, and recorded unless the inode is no directory. -/
theorem Mid.data (h : Mid s N D) (hc : Cached s k i) (hi : Alloc s.sb N i) (hj : j ≠ MAXFILE)
    (h0 : slot s.disk (N i) j ≠ 0)
    (hu : u = { s with disk := update s.disk (slot s.disk (N i) j) z, lh := u.lh })
    (hlh : ∀ b ∈ s.lh, b ∈ u.lh) (hlog : slot s.disk (N i) j ∈ u.lh ∨ (N i).type ≠ T_DIR) :
    Ext s u N i k (N i) ∧ Mid u (update N i (N i)) (insert i D) := by
  have hdin : (s.itable k).din = N i := by rw [h.table.cached k hc.ref hc.valid, hc.inum]
  have hdisk : u.disk = update s.disk (slot s.disk (N i) j) z := by rw [hu]
  have hrange := slot_range h.owned hi h0
  have hext : Ext s u N i k (N i) := by
    refine ⟨?_, hlh, fun b hb => ?_, fun m hm ha l _ => ?_, rfl, fun l _ => Or.inl ?_, fun b hb => ?_⟩
    · rw [← hdin, update_eq_self, hdisk]
      exact hu
    · have := h.sb.bmapstart_lt
      rw [hdisk, update_of_ne (by omega)]
    · rw [hdisk, update_of_ne (slot_ne h hi h0 ha (Or.inl hm))]
    · rw [hdisk, slot_data h hi hj h0 hi]
    · by_cases hbs : b = slot s.disk (N i) j
      · cases hlog with
        | inl hmem => exact absurd (hbs ▸ hmem) hb
        | inr ht => exact Or.inr ⟨ht, hbs ▸ h0, j, hj, by rw [hdisk, slot_data h hi hj h0 hi, hbs]⟩
      · left
        rw [hdisk, update_of_ne hbs]
  have howned : Owned s.sb u.disk (update N i (N i)) ∅ := by
    rw [update_eq_self, hdisk]
    refine h.owned.congr (own_disk (fun m hm hm0 => ?_))
      (fun b hb => marked_disk h.sb (fun c _ hc => ?_) hb)
    · apply update_of_ne
      have := slot_ne h hi h0 hm (l := MAXFILE) (Or.inr hj.symm)
      rwa [slot_maxfile] at this
    · rw [update_of_ne (by omega)]
  refine ⟨hext, h.ext hext hc hi howned ?_ (h.fits i)⟩
  exact ⟨(h.full i hi).size, fun l hl => by
    rw [hdisk, slot_data h hi hj h0 hi]
    exact (h.full i hi).block l hl⟩

/-- The bytes of an inode after one of its data blocks has been written. -/
theorem byteAt_data (h : Mid s N D) (hi : Alloc s.sb N i) (hj : j ≠ MAXFILE)
    (h0 : slot s.disk (N i) j ≠ 0) (o : ℕ) : byteAt (update s.disk (slot s.disk (N i) j) z) (N i) o
      = if o / BSIZE = j then z (o % BSIZE) else byteAt s.disk (N i) o := by
  unfold byteAt
  rw [slot_data h hi hj h0 hi]
  split_ifs with ho
  · rw [ho, update_self]
  · rw [update_of_ne (slot_ne h hi h0 hi (Or.inr ho))]

end data

/-! ### `writei` -/

/-- Inside `writei` at offset `off`: the first `tot` bytes of the source are in place in blocks of
the inode, and below the size the first `st` are. -/
structure Written (s t : FsState) (i k : ℕ) (n : Dinode) (src : List UInt8) (off tot st : ℕ) : Prop where
  mid : Mid t (update s.dinode i n) (insert i ∅)
  ext : Ext s t s.dinode i k n
  same : n = { s.dinode i with addrs := n.addrs }
  old : ∀ j, slot s.disk (s.dinode i) j ≠ 0 → slot t.disk n j = slot s.disk (s.dinode i) j
  new : ∀ o, off ≤ o → o < off + tot → slot t.disk n (o / BSIZE) ≠ 0 ∧
    byteAt t.disk n o = src.getD (o - off) 0
  rest : ∀ o < (s.dinode i).size, byteAt t.disk n o =
    if off ≤ o ∧ o < off + st then src.getD (o - off) 0 else byteAt s.disk (s.dinode i) o

section written
variable {src : List UInt8} {st : ℕ} {n' : Dinode} {z : Block}

theorem Written.refl (h : Mid s s.dinode ∅) (hc : Cached s k i) :
    Written s s i k (s.dinode i) src off 0 0 where
  mid := by
    rw [update_eq_self]
    exact h.mono (Set.empty_subset _)
  ext := Ext.refl (h.din hc)
  same := rfl
  old := fun _ _ => rfl
  new := fun o h1 h2 => by omega
  rest := fun o _ => by rw [if_neg (by omega)]

theorem Written.type (h : Written s t i k n src off tot st) : n.type = (s.dinode i).type := by
  rw [h.same]
theorem Written.size (h : Written s t i k n src off tot st) : n.size = (s.dinode i).size := by
  rw [h.same]

theorem Written.alloc (h : Written s t i k n src off tot st) (hi : Alloc s.sb s.dinode i) :
    Alloc t.sb (update s.dinode i n) i := by
  unfold Alloc
  rw [update_self, h.type, h.ext.sb]
  exact hi

theorem place_lt (ho : o < MAXFILE * BSIZE) : o / BSIZE < MAXFILE :=
  Nat.div_lt_of_lt_mul (by rw [Nat.mul_comm]; exact ho)

theorem Written.mapped (hmid : Mid s s.dinode ∅) (hi : Alloc s.sb s.dinode i)
    (h : Written s t i k n src off tot tot) (hmax : off + tot ≤ MAXFILE * BSIZE)
    (hm : Mapped t (update s.dinode i n) (insert i ∅) i k u n') :
    Written s u i k n' src off tot tot := by
  have hkeeps := hm.keeps
  rw [update_self] at hkeeps
  have hn : n.type ≠ 0 := by
    rw [h.type]
    exact hi.2
  refine ⟨?_, ?_, ?_, fun j h0 => ?_, fun o h1 h2 => ?_, fun o ho => ?_⟩
  · have := hm.mid
    rwa [update_idem, Set.insert_idem] at this
  · exact h.ext.trans hm.ext hi hn (fun j _ h0 => hkeeps.slot j h0)
  · rw [hkeeps.same, h.same]
  · rw [hkeeps.slot j (by rw [h.old j h0]; exact h0), h.old j h0]
  · have := h.new o h1 h2
    refine ⟨by rw [hkeeps.slot _ this.1]; exact this.1, ?_⟩
    rw [hkeeps.byteAt (by omega) this.1, this.2]
  · have hfull := hmid.full i hi
    have h0 : slot t.disk n (o / BSIZE) ≠ 0 := by
      rw [h.old _ (hfull.byte ho)]
      exact hfull.byte ho
    rw [hkeeps.byteAt (lt_of_lt_of_le ho hfull.size) h0, h.rest o ho]

theorem piece_byte {pos : ℕ} {bs : List UInt8} (hpos : pos = off + tot)
    (hbs : bs = (src.drop tot).take m) (ho : o / BSIZE = pos / BSIZE) :
    Bytes.write z (pos % BSIZE) bs (o % BSIZE)
      = if pos ≤ o ∧ o < pos + bs.length then src.getD (o - off) 0 else z (o % BSIZE) := by
  have hlen : bs.length ≤ m := by
    rw [hbs]
    exact List.length_take_le _ _
  have hmod : pos ≤ o ↔ pos % BSIZE ≤ o % BSIZE := by
    unfold BSIZE at *
    omega
  have hdiff : pos ≤ o → o % BSIZE - pos % BSIZE = o - pos := fun h => by
    unfold BSIZE at *
    omega
  by_cases hin : pos ≤ o ∧ o < pos + bs.length
  · have h1 := hmod.mp hin.1
    have h2 := hdiff hin.1
    rw [if_pos hin, Bytes.write_of_mem h1 (by omega), h2, hbs]
    have hlt : o - pos < m := by omega
    rw [List.getD_eq_getElem?_getD, List.getElem?_take_of_lt hlt,
      List.getElem?_drop, ← List.getD_eq_getElem?_getD]
    congr 1
    omega
  · rw [if_neg hin, Bytes.write_of_not_mem]
    by_contra hcon
    rw [not_or, not_lt, not_le] at hcon
    have h1 := hmod.mpr hcon.1
    have h2 := hdiff h1
    exact hin ⟨h1, by omega⟩

/-- A piece of the source is stored in the block of its offset; `w` is what counts as written. -/
theorem Written.piece {bs : List UInt8} {w : ℕ} {lh : List ℕ} (hc : Cached s k i)
    (hi : Alloc s.sb s.dinode i) (h : Written s t i k n src off tot tot)
    (hbs : bs = (src.drop tot).take m) (hm : m ≤ BSIZE - (off + tot) % BSIZE)
    (hmax : off + tot < MAXFILE * BSIZE) (h0 : slot t.disk n ((off + tot) / BSIZE) ≠ 0)
    (htot : w = tot ∨ w = tot + bs.length) (hlh : ∀ b ∈ t.lh, b ∈ lh)
    (hlog : slot t.disk n ((off + tot) / BSIZE) ∈ lh ∨ (s.dinode i).type ≠ T_DIR) : Written s { t with
      disk := update t.disk (slot t.disk n ((off + tot) / BSIZE))
        (Bytes.write (t.disk (slot t.disk n ((off + tot) / BSIZE))) ((off + tot) % BSIZE) bs)
      lh := lh } i k n src off w (tot + bs.length) := by
  generalize hu : FsState.mk t.sb _ _ lh _ _ _ _ = u
  have hit := h.alloc hi
  have hct := h.ext.cached hc
  have hn : n.type ≠ 0 := by
    rw [h.type]
    exact hi.2
  have hj : (off + tot) / BSIZE ≠ MAXFILE := (place_lt hmax).ne
  have h0' : slot t.disk (update s.dinode i n i) ((off + tot) / BSIZE) ≠ 0 := by
    rw [update_self]
    exact h0
  have hdata := h.mid.data
    (z := Bytes.write (t.disk (slot t.disk n ((off + tot) / BSIZE))) ((off + tot) % BSIZE) bs)
    hct hit hj h0' (u := u) (by rw [update_self, ← hu]) (by rw [← hu]; exact hlh)
    (by rw [update_self, h.type, ← hu]; exact hlog)
  rw [update_self] at hdata
  have hdisk : u.disk = update t.disk (slot t.disk n ((off + tot) / BSIZE))
      (Bytes.write (t.disk (slot t.disk n ((off + tot) / BSIZE))) ((off + tot) % BSIZE) bs) := by
        rw [← hu]
  have hslot : ∀ l, slot u.disk n l = slot t.disk n l := fun l => by
    have := slot_data (z := Bytes.write (t.disk (slot t.disk n ((off + tot) / BSIZE)))
      ((off + tot) % BSIZE) bs) h.mid hit hj h0' hit l
    rw [update_self] at this
    rw [hdisk, this]
  have hbyte : ∀ o, byteAt u.disk n o = if off + tot ≤ o ∧
    o < off + tot + bs.length then src.getD (o - off) 0
      else byteAt t.disk n o := fun o => by
    have := byteAt_data (z := Bytes.write (t.disk (slot t.disk n ((off + tot) / BSIZE)))
      ((off + tot) % BSIZE) bs) h.mid hit hj h0' o
    rw [update_self] at this
    rw [hdisk, this]
    by_cases ho : o / BSIZE = (off + tot) / BSIZE
    · rw [if_pos ho, piece_byte rfl hbs ho]
      unfold byteAt
      rw [ho]
    · have hlen : bs.length ≤ m := by
        rw [hbs]
        exact List.length_take_le _ _
      rw [if_neg ho, if_neg]
      rintro ⟨h1, h2⟩
      apply ho
      unfold BSIZE at *
      omega
  refine ⟨?_, ?_, h.same, fun j hj0 => ?_, fun o h1 h2 => ?_, fun o ho => ?_⟩
  · have := hdata.2
    rwa [update_idem, Set.insert_idem] at this
  · exact h.ext.trans hdata.1 hi hn (fun l _ _ => hslot l)
  · rw [hslot, h.old j hj0]
  · rw [hslot, hbyte]
    by_cases hin : o < off + tot
    · rw [if_neg (by omega)]
      exact h.new o h1 hin
    · have hlen : bs.length ≤ m := by
        rw [hbs]
        exact List.length_take_le _ _
      have hdiv : o / BSIZE = (off + tot) / BSIZE := by
        unfold BSIZE at *
        omega
      rw [hdiv, if_pos (by omega)]
      exact ⟨h0, rfl⟩
  · rw [hbyte, h.rest o ho]
    by_cases h1 : off + tot ≤ o ∧ o < off + tot + bs.length
    · rw [if_pos h1, if_pos (by omega)]
    · rw [if_neg h1]
      by_cases h2 : off ≤ o ∧ o < off + tot
      · rw [if_pos h2, if_pos (by omega)]
      · rw [if_neg h2, if_neg (by omega)]

/-- What the loop of `writei` leaves after `tot` bytes of `m`. -/
structure Stored (s u : FsState) (i k : ℕ) (n : Dinode) (src : List UInt8) (off m tot st : ℕ) :
    Prop where
  written : Written s u i k n src off tot st
  le : tot ≤ m
  part : tot ≤ st
  whole : m ≤ src.length → st = tot
  stop : tot = 0 ∨ (off + tot) % BSIZE = 0 ∨ tot = m
  inside : m ≤ src.length → off + m ≤ (s.dinode i).size → tot = m

theorem Written.no_block (hmid : Mid s s.dinode ∅) (hi : Alloc s.sb s.dinode i)
    (h : Written s u i k n src off tot tot) (hlt : tot < m)
    (hstop : tot = 0 ∨ (off + tot) % BSIZE = 0 ∨ tot = m)
    (h0 : slot s.disk (s.dinode i) ((off + tot) / BSIZE) = 0) : Stored s u i k n src off m tot tot where
  written := h
  le := hlt.le
  part := le_rfl
  whole := fun _ => rfl
  stop := hstop
  inside := fun _ hsize => absurd h0 ((hmid.full i hi).byte (by omega))

theorem writeiLoop_spec (hmid : Mid s s.dinode ∅) (hc : Cached s k i) (hi : Alloc s.sb s.dinode i)
    (hop : 0 < s.outstanding) (m : ℕ) (hmax : off + m ≤ MAXFILE * BSIZE)
    (hdir : (s.dinode i).type = T_DIR → m ≤ src.length) :
      ∀ (fuel tot : ℕ) (t : FsState) (n : Dinode), m - tot ≤ fuel → tot ≤ m →
        (tot = 0 ∨ (off + tot) % BSIZE = 0 ∨ tot = m) → Written s t i k n src off tot tot →
      wp (writeiLoop k src m fuel (off + tot) tot)
        (fun r u => ∃ n tot st, r = (off + tot, tot) ∧ Stored s u i k n src off m tot st ∧
          (tot < m → m ≤ src.length → NoRoom u)) (fun _ => False) t := by
  intro fuel
  induction fuel with
  | zero =>
      intro tot t n hfuel htot hstop hw
      rw [writeiLoop, wp_pure]
      exact ⟨n, tot, tot, rfl, ⟨hw, htot, le_rfl, fun _ => rfl, hstop, fun _ _ => by omega⟩,
        fun hlt => by omega⟩
  | succ fuel ih =>
      intro tot t n hfuel htot hstop hw
      rw [writeiLoop, wp_ite]
      refine ⟨fun hlt => ?_, fun hlt => ?_⟩
      · have hpos : off + tot < MAXFILE * BSIZE := by omega
        have hct := hw.ext.cached hc
        have hopt : 0 < t.outstanding := by
          rw [hw.ext.outstanding]
          exact hop
        rw [wp_bind]
        apply wp_post (bmap_spec hw.mid hct (hw.alloc hi) hopt (place_lt hpos))
        rintro addr u ⟨n', hmap, haddr, hnone⟩
        rw [update_self] at hnone
        have hwu := hw.mapped hmid hi hpos.le hmap
        rw [wp_ite]
        refine ⟨fun h0 => ?_, fun h0 => ?_⟩
        · rw [wp_pure]
          refine ⟨n', tot, tot, rfl, hwu.no_block hmid hi hlt hstop ?_, fun _ _ => (hnone h0).2⟩
          by_contra hne
          rw [hw.old _ hne] at hnone
          exact hne (hnone h0).1
        · have hslot := haddr h0
          have hchunk : min (m - tot) (BSIZE - (off + tot) % BSIZE) ≤ BSIZE - (off + tot) % BSIZE :=
            Nat.min_le_right _ _
          have hchunk0 : 0 < min (m - tot) (BSIZE - (off + tot) % BSIZE) := by
            have : (off + tot) % BSIZE < BSIZE := Nat.mod_lt _ (by decide)
            omega
          have hend : tot + min (m - tot) (BSIZE - (off + tot) % BSIZE) = m ∨
              (off + (tot + min (m - tot) (BSIZE - (off + tot) % BSIZE))) % BSIZE = 0 := by
            unfold BSIZE
            omega
          have hle : tot + min (m - tot) (BSIZE - (off + tot) % BSIZE) ≤ m := by omega
          generalize min (m - tot) (BSIZE - (off + tot) % BSIZE) = c at *
          subst hslot
          simp only [wp_bind, changeBlock, wp_modify]
          rw [wp_ite]
          refine ⟨fun hshort => ?_, fun hshort => ?_⟩
          · -- the source ends inside the piece
            rw [wp_pure]
            have hpart := hwu.piece (w := tot) hc hi rfl hchunk hpos h0 (Or.inl rfl)
              (fun _ hb => hb) (Or.inr (fun hd => by have := hdir hd; omega))
            exact ⟨n', tot, _, rfl, ⟨hpart, hlt.le, Nat.le_add_right _ _, fun hm => by omega, hstop,
              fun hm _ => by omega⟩, fun _ hm => by omega⟩
          · have hlen : ((src.drop tot).take c).length = c := by
              rw [List.length_take, List.length_drop]
              omega
            rw [wp_bind, wp_logWrite (by dsimp only; rw [hwu.ext.outstanding]; exact hop), Nat.add_assoc]
            have hpart := hwu.piece (w := tot + c) hc hi rfl hchunk hpos h0 (Or.inr (by rw [hlen]))
              (fun b hb => mem_logged.mpr (Or.inl hb)) (Or.inl (mem_logged.mpr (Or.inr rfl)))
            rw [hlen] at hpart
            apply ih (tot + c) _ n' (by omega) hle _ hpart
            cases hend with
            | inl hend => exact Or.inr (Or.inr hend)
            | inr hend => exact Or.inr (Or.inl hend)
      · rw [wp_pure]
        exact ⟨n, tot, tot, rfl, ⟨hw, htot, le_rfl, fun _ => rfl, hstop, fun _ _ => by omega⟩,
          fun hlt' => by omega⟩

/-- `data'` is `data` with the first `st` bytes of `src` at `off`, as far as the file goes after
`tot` of them. -/
structure Overwritten (data data' src : List UInt8) (off tot st : ℕ) : Prop where
  length : data'.length = max data.length (off + tot)
  byte : ∀ o < data'.length, data'.getD o 0 = if off ≤ o ∧ o < off + st then src.getD (o - off) 0
    else data.getD o 0

theorem getD_data {d : Disk} (ho : o < n.size) : (nodeOf d n).data.getD o 0 = byteAt d n o := by
  simp [nodeOf, List.getD_eq_getElem?_getD, ho]

/-- Set the size after a write that reached `o`. -/
def Dinode.grow (n : Dinode) (o : ℕ) : Dinode := if n.size < o then { n with size := o } else n

theorem Dinode.grow_eq (n : Dinode) (o : ℕ) : n.grow o = { n with size := max n.size o } := by
  unfold Dinode.grow
  split_ifs with h
  · rw [Nat.max_eq_right h.le]
  · rw [Nat.max_eq_left (by omega)]

theorem Stored.overwritten (hoff : off ≤ (s.dinode i).size) (h : Stored s u i k n src off m tot st) :
    Overwritten (s.node i).data (nodeOf u.disk (n.grow (off + tot))).data src off tot st := by
  have hlen : (nodeOf u.disk (n.grow (off + tot))).data.length = max (s.dinode i).size (off + tot) := by
    rw [length_data, Dinode.grow_eq, h.written.size]
  refine ⟨by rw [hlen]; exact congrArg (max · _) (length_data _ _).symm, fun o ho => ?_⟩
  rw [length_data] at ho
  rw [getD_data ho]
  have hbyte : byteAt u.disk (n.grow (off + tot)) o = byteAt u.disk n o := by
    rw [Dinode.grow_eq]
    rfl
  rw [Dinode.grow_eq, h.written.size] at ho
  dsimp only at ho
  rw [hbyte]
  by_cases hin : o < (s.dinode i).size
  · rw [h.written.rest o hin]
    congr 1
    exact (getD_data hin).symm
  · have := h.part
    rw [(h.written.new o (by omega) (by omega)).2, if_pos (by omega)]

theorem Stored.grown (hmid : Mid s s.dinode ∅) (hc : Cached s k i) (hi : Alloc s.sb s.dinode i)
    (hoff : off ≤ (s.dinode i).size) (hmax : off + m ≤ MAXFILE * BSIZE)
    (h : Stored s u i k n src off m tot st) : Ext s (u.withDin k (n.grow (off + tot))) s.dinode i k
      (n.grow (off + tot)) ∧ Mid (u.withDin k (n.grow (off + tot)))
        (update s.dinode i (n.grow (off + tot))) (insert i ∅) := by
  have hw := h.written
  have hnt : n.type ≠ 0 := by
    rw [hw.type]
    exact hi.2
  have hle := h.le
  have hgrow := Dinode.grow_eq n (off + tot)
  have hslot : ∀ l, slot u.disk (n.grow (off + tot)) l = slot u.disk n l := slot_of_addrs (by rw [hgrow])
  have hself : slot u.disk (update s.dinode i n i) = slot u.disk n := by rw [update_self]
  have hext : Ext u (u.withDin k (n.grow (off + tot))) (update s.dinode i n) i k
      (n.grow (off + tot)) := by
    refine ⟨rfl, fun _ hb => hb, fun _ _ => rfl, fun _ _ _ _ _ => rfl, ?_, fun l _ => Or.inl ?_,
      fun _ _ => Or.inl rfl⟩
    · rw [update_self, hgrow]
    · rw [hself]
      exact hslot l
  have hfull : Full u.disk (n.grow (off + tot)) := by
    have hold := hmid.full i hi
    refine ⟨?_, fun j hj => ?_⟩
    · have := hold.size
      rw [hgrow, hw.size]
      dsimp only
      omega
    · rw [hslot]
      rw [hgrow, hw.size] at hj
      dsimp only at hj
      by_cases hjs : j * BSIZE < (s.dinode i).size
      · have := hold.block j hjs
        rw [hw.old j this]
        exact this
      · have := (hw.new (j * BSIZE) (by omega) (by omega)).1
        rwa [Nat.mul_div_cancel _ (by decide : 0 < BSIZE)] at this
  have hfits : (n.grow (off + tot)).Fits := by
    have hn := hw.mid.fits i
    rw [update_self] at hn
    have := hfull.size
    rw [hgrow] at this ⊢
    exact { hn with size := lt_of_le_of_lt this (by decide) }
  have howned : Owned u.sb u.disk (update (update s.dinode i n) i (n.grow (off + tot))) ∅ := by
    apply hw.mid.owned.congr _ (fun _ _ => Iff.rfl)
    apply own_update_addrs (hw.alloc hi)
    · rw [hgrow]
      exact hnt
    · rw [update_self, hgrow]
  refine ⟨hw.ext.trans hext hi hnt (fun l _ _ => hslot l), ?_⟩
  have := hw.mid.ext hext (hw.ext.cached hc) (hw.alloc hi) howned hfull hfits
  rwa [update_idem, Set.insert_idem] at this

/-- What `writei` that was not refused leaves: the loop's state `u`, with the new size, and the
inode written back. -/
structure Finished (s s' u : FsState) (i k : ℕ) (n : Dinode) (src : List UInt8) (off m tot st : ℕ) :
    Prop where
  stored : Stored s u i k n src off m tot st
  ext : Ext s (u.withDin k (n.grow (off + tot))) s.dinode i k (n.grow (off + tot))
  mid : Mid (u.withDin k (n.grow (off + tot))) (update s.dinode i (n.grow (off + tot))) (insert i ∅)
  state : s' = (u.withDin k (n.grow (off + tot))).wrote i (n.grow (off + tot))
  short : tot < m → m ≤ src.length → NoRoom u

/-- **`writei`** is refused, or it stores a part of the source. -/
theorem writei_mid (h : Mid s s.dinode ∅) (hc : Cached s k i) (hi : Alloc s.sb s.dinode i)
    (hop : 0 < s.outstanding) (hm : m < 2 ^ 32)
    (hlen : (s.dinode i).type = T_DIR → m ≤ src.length) : wp (writei k src off m) (fun r s' =>
      (r = -1 ∧ s' = s ∧ ((s.dinode i).size < off ∨ 2 ^ 32 ≤ off + m ∨ MAXFILE * BSIZE < off + m)) ∨
      (off ≤ (s.dinode i).size ∧ off + m ≤ MAXFILE * BSIZE ∧
        ∃ (u : FsState) (n : Dinode) (tot st : ℕ), r = tot ∧
        Finished s s' u i k n src off m tot st)) (fun _ => False) s := by
  have hfull := (h.full i hi).size
  have hbig : MAXFILE * BSIZE < 2 ^ 32 := by decide
  unfold writei getInode
  simp only [wp_bind, wp_get, wp_pure, h.din hc]
  rw [wp_ite]
  refine ⟨fun hbad => wp_pure.mpr (Or.inl ⟨rfl, rfl, by omega⟩), fun hbad => ?_⟩
  rw [wp_ite]
  refine ⟨fun hbad' => wp_pure.mpr (Or.inl ⟨rfl, rfl, by omega⟩), fun hbad' => ?_⟩
  -- the sum of the offset and the length does not wrap round
  have hoff : off ≤ (s.dinode i).size := by omega
  have hmax : off + m ≤ MAXFILE * BSIZE := by omega
  rw [wp_bind]
  have hloop := writeiLoop_spec h hc hi hop m hmax hlen m 0 s (s.dinode i) le_rfl (Nat.zero_le m)
    (Or.inl rfl) (Written.refl h hc)
  rw [Nat.add_zero] at hloop
  apply wp_post hloop
  rintro _ u ⟨n, tot, st, rfl, hst, hshort⟩
  have hgrown := hst.grown h hc hi hoff hmax
  have hdin : (u.itable k).din = n := by
    rw [hst.written.ext.itable, update_self]
  simp only [wp_bind, wp_modifyDin, wp_pure, hdin]
  have hc' := hgrown.1.cached hc
  apply wp_post (iupdate_spec hgrown.2 hc' (by rw [hgrown.1.outstanding]; exact hop))
  intro _ s' hs'
  rw [update_self] at hs'
  exact Or.inr ⟨hoff, hmax, u, n, tot, st, rfl, hst, hgrown.1, hgrown.2, hs', hshort⟩

end written

end Xv6Cow.Fs
