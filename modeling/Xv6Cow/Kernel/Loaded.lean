import Xv6Cow.Kernel.Marshal

/-! # What `exec` loads

The program headers are read one after the other; each `PT_LOAD` header grows the image to the end
of its segment and writes the bytes of the file at its address, page by page, with the offset and
the size cut to 32 bits.  A byte that is in the image stays there until a later header writes it, so
a segment that lies in the file is found in the image wherever no later one covers it.  The stack
and the page below it are added at the end, above everything that was loaded. -/

namespace Xv6Cow.Kernel

open Vm

/-! ### Bytes by address -/

/-- The byte at an address of the image. -/
def byteAt (g : Image) (x : ℕ) : Option UInt8 := (g (x / PGSIZE)).map (fun pg => pg.bytes (x % PGSIZE))

/-- The first `n` pages are there, for user code. -/
def Full (g : Image) (n : ℕ) : Prop := ∀ v < n, ∃ pg, g v = some pg ∧ pg.perm.u = true ∧ pg.perm.r = true

section images
variable {g : Image} {va x n k : ℕ} {bs : List UInt8} {p : Perm}

theorem byteAt_poke_of_not_mem (h : x < va ∨ va + bs.length ≤ x) : byteAt (g.poke va bs) x =
    byteAt g x := by
  unfold byteAt Image.poke
  rw [Option.map_map]
  refine congrArg (fun F => Option.map F (g (x / PGSIZE))) (funext (fun pg => ?_))
  have hdm := Nat.div_add_mod' x PGSIZE
  simp only [Function.comp_apply]
  split_ifs with hx
  · exact List.getD_eq_default _ _ (by omega)
  · rfl

theorem byteAt_poke_of_mem (h1 : va ≤ x) (h2 : x - va < bs.length) (hpg : g (x / PGSIZE) ≠ none) :
    byteAt (g.poke va bs) x = some bs[x - va] := by
  obtain ⟨pg, hpg⟩ := Option.ne_none_iff_exists'.mp hpg
  have hdm := Nat.div_add_mod' x PGSIZE
  have hlt : x % PGSIZE < PGSIZE := Nat.mod_lt _ (by decide)
  unfold byteAt Image.poke
  rw [hpg, Option.map_some, Option.map_some]
  simp only [hdm]
  rw [if_pos ⟨hlt, h1⟩, List.getD_eq_getElem _ _ h2]

theorem byteAt_addPages (fresh : ℕ → Bytes) (h : x / PGSIZE < k) :
    byteAt (addPages fresh g k n p) x = byteAt g x := by
  unfold byteAt addPages
  rw [if_neg (by omega)]

theorem Full.poke (h : Full g n) (va : ℕ) (bs : List UInt8) : Full (g.poke va bs) n := by
  intro v hv
  obtain ⟨pg, hpg, hu, hr⟩ := h v hv
  obtain ⟨pg', hpg', hperm⟩ := poke_page hpg va bs
  exact ⟨pg', hpg', by rw [hperm]; exact ⟨hu, hr⟩⟩

theorem Full.addPages (h : Full g k) (fresh : ℕ → Bytes) (hk : k ≤ n)
    (hp : p.u = true ∧ p.r = true) : Full (addPages fresh g k (n - k) p) n := by
  intro v hv
  unfold Kernel.addPages
  split_ifs with hx
  · exact ⟨_, rfl, hp⟩
  · exact h v (by omega)

end images

/-! ### `loadseg` -/

section segments
variable {fresh : ℕ → Bytes} {file ph : List UInt8} {va offset sz sz' k i off cnt : ℕ}
    {g g' : Image} {r : ℤ}

theorem readi_inside {n : ℕ} (hlen : file.length < 2 ^ 32) (h : off + n ≤ file.length) :
    readi file off n = (file.drop off).take n := by
  rw [readi, if_neg (by omega)]

theorem field_lt (bs : List UInt8) (off n : ℕ) : field bs off n < 256 ^ n := Bytes.le_lt n off

/-- A `loadseg` that succeeds writes the segment, and what it writes is the file if the segment is
inside it. -/
theorem rLoadseg_poke (hva : va % PGSIZE = 0) (hi : i % PGSIZE = 0)
    (hk : k = (sz - i + (PGSIZE - 1)) / PGSIZE) (h : rLoadseg va file offset sz k i g = (r, g'))
    (hr : 0 ≤ r) : ∃ bs, bs.length = sz - i ∧ g' = g.poke (va + i) bs ∧
      (file.length < 2 ^ 32 → offset + sz ≤ file.length →
        bs = (file.drop (offset + i)).take (sz - i)) := by
  induction k generalizing i g with
  | zero =>
      rw [rLoadseg, Prod.mk.injEq] at h
      have hz : sz - i = 0 := by
        unfold PGSIZE at hk
        omega
      exact ⟨[], hz.symm, by rw [Image.poke_nil, h.2], fun _ _ => by rw [hz, List.take_zero]⟩
  | succ k ih =>
      simp only [rLoadseg] at h
      set n := min (sz - i) PGSIZE with hn
      set bs := readi file ((offset + i) % 2 ^ 32) n with hbs
      by_cases hshort : bs.length ≠ n
      · rw [if_pos hshort, Prod.mk.injEq] at h
        omega
      rw [if_neg hshort] at h
      rw [not_not] at hshort
      have hpos : i < sz := by
        unfold PGSIZE at hk
        omega
      have hal : (va + i) % PGSIZE = 0 := by
        unfold PGSIZE at *
        omega
      obtain ⟨rest, hlen, hg, hfile⟩ := ih (i := i + PGSIZE) (by rw [Nat.add_mod_right]; exact hi)
        (by unfold PGSIZE at *; omega) h
      refine ⟨bs ++ rest, ?_, ?_, fun hsmall hin => ?_⟩
      · rw [List.length_append, hshort, hlen]
        unfold PGSIZE at *
        omega
      · rw [hg, show g.put ((va + i) / PGSIZE) 0 bs = g.poke (va + i) bs by
          rw [← Image.put_eq_poke (by unfold PGSIZE at *; omega), hal], Image.poke_poke]
        rcases Nat.lt_or_ge (sz - i) PGSIZE with hlast | hmore
        · left
          exact List.length_eq_zero_iff.mp (by omega)
        · right
          rw [hshort, hn]
          unfold PGSIZE at *
          omega
      · have hread : bs = (file.drop (offset + i)).take n := by
          rw [hbs, Nat.mod_eq_of_lt (by omega)]
          exact readi_inside hsmall (by omega)
        rw [hread, hfile hsmall hin]
        have hdrop : file.drop (offset + (i + PGSIZE)) = (file.drop (offset + i)).drop PGSIZE := by
          rw [List.drop_drop, Nat.add_assoc]
        rw [hdrop]
        rcases Nat.lt_or_ge (sz - i) PGSIZE with hlast | hmore
        · rw [show sz - (i + PGSIZE) = 0 by omega, List.take_zero, List.append_nil,
            show n = sz - i by omega]
        · rw [show n = PGSIZE by omega, show sz - i = PGSIZE + (sz - (i + PGSIZE)) by omega,
            List.take_add]

/-! ### The program headers -/

/-- The program header `k` places after `off`, as `exec` reads it. -/
def phdrAt (file : List UInt8) (off k : ℕ) : List UInt8 :=
  readi file ((off + PROGHDR_SIZE * k) % 2 ^ 32) PROGHDR_SIZE

/-- Fields of a program header. -/
def phType (ph : List UInt8) : ℕ := field ph 0 4
def phOff (ph : List UInt8) : ℕ := field ph 8 8
def phVaddr (ph : List UInt8) : ℕ := field ph 16 8
def phFilesz (ph : List UInt8) : ℕ := field ph 32 8

/-- Loading the segment of the header writes the address `x`. -/
def Covers (ph : List UInt8) (x : ℕ) : Prop :=
  phType ph = ELF_PROG_LOAD ∧ phVaddr ph ≤ x ∧ x < phVaddr ph + phFilesz ph % 2 ^ 32

/-- The segment of the header lies inside the file. -/
def InFile (file ph : List UInt8) : Prop := phType ph = ELF_PROG_LOAD ∧ phOff ph + phFilesz ph ≤
    file.length

theorem rUvmalloc_eq (fresh : ℕ → Bytes) (g : Image) (oldsz newsz : ℕ) (x : Pte) :
    rUvmalloc fresh g oldsz newsz x =
      (max oldsz newsz, addPages fresh g (npg oldsz) (npg (max oldsz newsz) - npg oldsz)
        (permOf x)) := by
  unfold rUvmalloc
  split_ifs with hlt
  · rw [Nat.max_eq_left (Nat.le_of_lt hlt), Nat.sub_self]
    refine congrArg (Prod.mk oldsz) (funext (fun v => ?_))
    rw [addPages, if_neg (by omega)]
  · rw [Nat.max_eq_right (Nat.not_lt.mp hlt)]

/-- The checks of `exec` on a header keep its segment below the size that `uvmalloc` is asked
for. -/
theorem segment_end {vaddr filesz memsz : ℕ} (hv : vaddr < 256 ^ 8) (hm : memsz < 256 ^ 8)
    (hle : ¬ memsz < filesz) (hwrap : ¬ (vaddr + memsz) % 2 ^ 64 < vaddr) :
    vaddr + filesz % 2 ^ 32 ≤ (vaddr + memsz) % 2 ^ 64 := by
  have hmod : filesz % 2 ^ 32 ≤ filesz := Nat.mod_le _ _
  omega

/-- A header that `exec` accepts: the image grows, and its segment is written. -/
theorem rExecSeg_loaded (h : rExecSeg fresh file ph sz g = (true, sz', g')) :
    sz ≤ sz' ∧ phVaddr ph + phFilesz ph % 2 ^ 32 ≤ sz' ∧ ∃ p bs, (p.u = true ∧ p.r = true) ∧
      bs.length = phFilesz ph % 2 ^ 32 ∧
      g' = (addPages fresh g (npg sz) (npg sz' - npg sz) p).poke (phVaddr ph) bs ∧
      (file.length < 2 ^ 32 → phOff ph + phFilesz ph ≤ file.length →
        bs = (file.drop (phOff ph)).take (phFilesz ph)) := by
  have hv : phVaddr ph < 256 ^ 8 := field_lt ph 16 8
  have hm := field_lt ph 40 8
  simp only [rExecSeg, rUvmalloc_eq] at h
  rw [← phVaddr, ← phFilesz, ← phOff] at h
  split_ifs at h with hbad hz
  · simp at h
  · simp at h
  simp only [not_or, not_not] at hbad
  obtain ⟨hle, hwrap, hal⟩ := hbad
  have hend := segment_end hv hm hle hwrap
  generalize (phVaddr ph + field ph 40 8) % 2 ^ 64 = newsz at h hend hwrap
  generalize hload : rLoadseg (phVaddr ph) file (phOff ph % 2 ^ 32) (phFilesz ph % 2 ^ 32) _ 0 _ = x at h
  obtain ⟨r, g₂⟩ := x
  rw [Prod.mk.injEq, Prod.mk.injEq, decide_eq_true_eq] at h
  obtain ⟨hr, rfl, rfl⟩ := h
  obtain ⟨bs, hlen, hg', hfile⟩ := rLoadseg_poke hal (Nat.zero_mod _) (by rw [Nat.sub_zero]) hload hr
  rw [Nat.add_zero] at hg' hfile
  rw [Nat.sub_zero] at hlen hfile
  refine ⟨le_max_left _ _, le_trans hend (le_max_right _ _), _, bs, ⟨rfl, rfl⟩, hlen, hg',
    fun hsmall hin => ?_⟩
  rw [Nat.mod_eq_of_lt (show phOff ph < 2 ^ 32 by omega),
    Nat.mod_eq_of_lt (show phFilesz ph < 2 ^ 32 by omega)] at hfile
  exact hfile hsmall hin

theorem phdrAt_zero (file : List UInt8) (hoff : off < 2 ^ 32) :
    phdrAt file off 0 = readi file off PROGHDR_SIZE := by
  rw [phdrAt, Nat.mul_zero, Nat.add_zero, Nat.mod_eq_of_lt hoff]

theorem phdrAt_succ (file : List UInt8) (off k : ℕ) :
    phdrAt file off (k + 1) = phdrAt file ((off + PROGHDR_SIZE) % 2 ^ 32) k := by
  unfold phdrAt PROGHDR_SIZE
  congr 1
  omega

/-- The bytes of the first `n` pages of `g` that none of the headers writes are in `g'`. -/
def Uncovered (file : List UInt8) (off cnt n : ℕ) (g g' : Image) : Prop :=
  ∀ x, x / PGSIZE < n → (∀ k < cnt, ¬ Covers (phdrAt file off k) x) → byteAt g' x = byteAt g x

/-- The segments that lie inside the file are in the first `n` pages of the image, but for what a
later one writes. -/
def Found (file : List UInt8) (off cnt n : ℕ) (g : Image) : Prop :=
  ∀ k < cnt, InFile file (phdrAt file off k) → ∀ j < phFilesz (phdrAt file off k),
    (∀ l, k < l → l < cnt → ¬ Covers (phdrAt file off l) (phVaddr (phdrAt file off k) + j)) →
    (phVaddr (phdrAt file off k) + j) / PGSIZE < n ∧
      byteAt g (phVaddr (phdrAt file off k) + j) = file[phOff (phdrAt file off k) + j]?

/-- What the headers after the first one leave alone, when the first one does not write it
either. -/
theorem Uncovered.after {n n₁ : ℕ} {g₁ : Image}
    (h : Uncovered file ((off + PROGHDR_SIZE) % 2 ^ 32) cnt n₁ g₁ g') (hle : n ≤ n₁)
    (hfirst : ∀ x, x / PGSIZE < n → ¬ Covers (phdrAt file off 0) x → byteAt g₁ x = byteAt g x) :
    Uncovered file off (cnt + 1) n g g' := by
  intro x hx hno
  rw [h x (lt_of_lt_of_le hx hle) (fun k hk => ?_), hfirst x hx (hno 0 (Nat.succ_pos _))]
  rw [← phdrAt_succ]
  exact hno (k + 1) (by omega)

/-- The segments of the headers after the first one, and that of the first one. -/
theorem Found.after {n : ℕ} (h : Found file ((off + PROGHDR_SIZE) % 2 ^ 32) cnt n g)
    (hfirst : InFile file (phdrAt file off 0) → ∀ j < phFilesz (phdrAt file off 0),
      (∀ k < cnt, ¬ Covers (phdrAt file ((off + PROGHDR_SIZE) % 2 ^ 32) k)
        (phVaddr (phdrAt file off 0) + j)) →
      (phVaddr (phdrAt file off 0) + j) / PGSIZE < n ∧
        byteAt g (phVaddr (phdrAt file off 0) + j) = file[phOff (phdrAt file off 0) + j]?) :
    Found file off (cnt + 1) n g := by
  rintro (_ | k) hk hin j hj hlater
  · refine hfirst hin j hj (fun k hk => ?_)
    rw [← phdrAt_succ]
    exact hlater (k + 1) (by omega) (by omega)
  · rw [phdrAt_succ] at hin hj hlater ⊢
    refine h k (by omega) hin j hj (fun l h1 h2 => ?_)
    have := hlater (l + 1) (by omega) (by omega)
    rwa [phdrAt_succ] at this

theorem rExecSeg_found (hsmall : file.length < 2 ^ 32) (hfull : Full g (npg sz))
    (h : rExecSeg fresh file ph sz g = (true, sz', g')) (hin : InFile file ph) {j : ℕ}
    (hj : j < phFilesz ph) : (phVaddr ph + j) / PGSIZE < npg sz' ∧ byteAt g' (phVaddr ph + j) =
      file[phOff ph + j]? := by
  obtain ⟨hle, hend, p, bs, hp, hlen, rfl, hfile⟩ := rExecSeg_loaded h
  rw [Nat.mod_eq_of_lt (lt_of_le_of_lt (le_trans (Nat.le_add_left _ _) hin.2) hsmall)] at hend hlen
  have hpage : (phVaddr ph + j) / PGSIZE < npg sz' := by
    unfold npg PGSIZE
    omega
  refine ⟨hpage, ?_⟩
  obtain ⟨pg, hpg, -⟩ := hfull.addPages fresh (npg_mono hle) hp _ hpage
  rw [byteAt_poke_of_mem (Nat.le_add_right _ _) (by omega) (by rw [hpg]; simp),
    List.getElem?_eq_getElem (lt_of_lt_of_le (Nat.add_lt_add_left hj _) hin.2)]
  simp [hfile hsmall hin.2]

theorem rExecSegs_loaded (hsmall : file.length < 2 ^ 32) (hoff : off < 2 ^ 32)
    (h : rExecSegs fresh file cnt off sz g = (true, sz', g')) (hfull : Full g (npg sz)) :
    sz ≤ sz' ∧ Full g' (npg sz') ∧ Uncovered file off cnt (npg sz) g g' ∧
      Found file off cnt (npg sz') g' := by
  induction cnt generalizing off sz g with
  | zero =>
      rw [rExecSegs, Prod.mk.injEq, Prod.mk.injEq] at h
      obtain ⟨-, rfl, rfl⟩ := h
      exact ⟨le_rfl, hfull, fun _ _ _ => rfl, fun k hk => absurd hk (Nat.not_lt_zero k)⟩
  | succ cnt ih =>
      have hnext : (off + PROGHDR_SIZE) % 2 ^ 32 < 2 ^ 32 := Nat.mod_lt _ (by decide)
      simp only [rExecSegs] at h
      rw [← phdrAt_zero file hoff] at h
      split_ifs at h with hshort hskip hok
      · simp at h
      · obtain ⟨h1, h2, h3, h4⟩ := ih hnext h hfull
        exact ⟨h1, h2, h3.after le_rfl (fun _ _ _ => rfl), h4.after (fun hin => absurd hin.1 hskip)⟩
      · generalize hseg : rExecSeg fresh file (phdrAt file off 0) sz g = y at h hok
        obtain ⟨ok, sz₁, g₁⟩ := y
        obtain rfl : ok = true := hok
        obtain ⟨hle, -, p, bs, hp, hlen, hg, -⟩ := rExecSeg_loaded hseg
        have hfull₁ : Full g₁ (npg sz₁) := by
          rw [hg]
          exact (hfull.addPages fresh (npg_mono hle) hp).poke _ bs
        obtain ⟨h1, h2, h3, h4⟩ := ih hnext h hfull₁
        refine ⟨hle.trans h1, h2, h3.after (npg_mono hle) (fun x hx hno => ?_),
          h4.after (fun hin j hj hlater => ?_)⟩
        · rw [hg, byteAt_poke_of_not_mem, byteAt_addPages fresh hx]
          by_contra hmem
          exact hno ⟨not_not.mp hskip, by omega, by omega⟩
        · obtain ⟨hpage, hbyte⟩ := rExecSeg_found hsmall hfull hseg hin hj
          exact ⟨lt_of_lt_of_le hpage (npg_mono h1), by rw [h3 _ hpage hlater, hbyte]⟩
      · simp at h

/-! ### The new address space -/

/-- The number of program headers and where they begin. -/
def phnum (file : List UInt8) : ℕ := field (readi file 0 ELFHDR_SIZE) 56 2
def phoff (file : List UInt8) : ℕ := field (readi file 0 ELFHDR_SIZE) 32 8 % 2 ^ 32

/-- An image of `sz` bytes that is ready for the arguments: the segments, a page without rights and
the stack. -/
def NewSpace (fresh : ℕ → Bytes) (file : List UInt8) (sz : ℕ) (g : Image) : Prop :=
  ∃ sz₀ g₀, rExecSegs fresh file (phnum file) (phoff file) 0 (fun _ => none) = (true, sz₀, g₀) ∧
    sz₀ < 2 ^ 63 ∧ sz = (npg sz₀ + 2) * PGSIZE ∧
    g = guardPage (addPages fresh g₀ (npg sz₀) 2 (permOf PTE_W)) (npg sz₀)

theorem NewSpace.rExecImage (h : NewSpace fresh file sz g) (args : List (List UInt8)) :
    rExecImage fresh file args = (rStack sz args g).map (fun x => (x.2.1, sz, x.2.2)) := by
  obtain ⟨sz₀, g₀, hsegs, hsz, rfl, rfl⟩ := h
  have hmax : max (npg sz₀ * PGSIZE) (npg sz₀ * PGSIZE + (USERSTACK + 1) * PGSIZE) =
      (npg sz₀ + 2) * PGSIZE := by
    unfold USERSTACK PGSIZE
    omega
  have hnz : ¬ (npg sz₀ + 2) * PGSIZE = 0 := by
    unfold PGSIZE
    omega
  rw [phnum, phoff] at hsegs
  simp only [Kernel.rExecImage, hsegs, pgroundup_eq hsz, rUvmalloc_eq, hmax, if_neg hnz, npg_mul,
    mul_div_pgsize, rExecStack_eq, Option.map_map]
  rw [show npg sz₀ + 2 - npg sz₀ = 2 by omega, show npg sz₀ + 2 - (USERSTACK + 1) =
    npg sz₀ by unfold USERSTACK; omega]
  rfl

theorem segs_loaded (hsmall : file.length < 2 ^ 32)
    (h : rExecSegs fresh file (phnum file) (phoff file) 0 (fun _ => none) = (true, sz, g)) :
    Full g (npg sz) ∧ Found file (phoff file) (phnum file) (npg sz) g := by
  have hoff : phoff file < 2 ^ 32 := Nat.mod_lt _ (by decide)
  have hnone : Full (fun _ => none) (npg 0) := fun v hv => by
    rw [show npg 0 = 0 by decide] at hv
    exact absurd hv (Nat.not_lt_zero v)
  obtain ⟨-, hfull, -, hfound⟩ := rExecSegs_loaded hsmall hoff h hnone
  exact ⟨hfull, hfound⟩

theorem guardPage_addPages {n v : ℕ} (fresh : ℕ → Bytes) (hfull : Full g n) (hv : v < n + 2) :
    ∃ pg, guardPage (addPages fresh g n 2 (permOf PTE_W)) n v = some pg ∧ pg.perm.r = true ∧
      (pg.perm.u = true ↔ v ≠ n) ∧ (n < v → pg.perm.w = true) := by
  unfold guardPage
  rcases eq_or_ne v n with rfl | hne
  · refine ⟨_, by rw [Function.update_self, addPages, if_pos (by omega), Option.map_some], rfl,
      by simp, by simp⟩
  · rw [Function.update_of_ne hne, addPages]
    split_ifs with hx
    · exact ⟨_, rfl, rfl, by simp [hne, permOf], fun _ => show (permOf PTE_W).w = true by decide⟩
    · obtain ⟨pg, hpg, hu, hr⟩ := hfull v (by omega)
      exact ⟨pg, hpg, hr, by simp [hu, hne], fun hlt => absurd hlt (by omega)⟩

/-- Every page of the new address space may be read; the page below the stack is the one that user
code may not. -/
theorem NewSpace.rights (hsmall : file.length < 2 ^ 32) (h : NewSpace fresh file sz g) :
    ∀ v < npg sz, ∃ pg, g v = some pg ∧ pg.perm.r = true ∧
      (pg.perm.u = true ↔ v ≠ npg sz - (USERSTACK + 1)) := by
  obtain ⟨sz₀, g₀, hsegs, hsz, rfl, rfl⟩ := h
  obtain ⟨hfull, -⟩ := segs_loaded hsmall hsegs
  intro v hv
  rw [npg_mul] at hv ⊢
  obtain ⟨pg, hpg, hr, hu, -⟩ := guardPage_addPages fresh hfull hv
  exact ⟨pg, hpg, hr,
    by rw [hu, show npg sz₀ + 2 - (USERSTACK + 1) = npg sz₀ by unfold USERSTACK; omega]⟩

theorem NewSpace.stack (h : NewSpace fresh file sz g) : StackReady sz g := by
  obtain ⟨sz₀, g₀, -, hsz, rfl, rfl⟩ := h
  refine ⟨Dvd.intro_left _ rfl, ?_, ?_, fun x h1 h2 => ?_⟩
  · unfold USERSTACK PGSIZE
    omega
  · unfold npg PGSIZE
    omega
  · have hx : x / PGSIZE = npg sz₀ + 1 := by
      unfold USERSTACK PGSIZE at *
      omega
    refine ⟨⟨permOf PTE_W, fresh (npg sz₀ + 1)⟩, ?_, rfl, show (permOf PTE_W).w = true by decide, rfl⟩
    rw [hx, guardPage, Function.update_of_ne (by omega), addPages, if_pos (by omega)]

theorem NewSpace.found (hsmall : file.length < 2 ^ 32) (h : NewSpace fresh file sz g) :
    Found file (phoff file) (phnum file) (npg sz - (USERSTACK + 1)) g := by
  obtain ⟨sz₀, g₀, hsegs, hsz, rfl, rfl⟩ := h
  obtain ⟨-, hfound⟩ := segs_loaded hsmall hsegs
  intro k hk hin j hj hlater
  obtain ⟨hpage, hbyte⟩ := hfound k hk hin j hj hlater
  rw [npg_mul, show npg sz₀ + 2 - (USERSTACK + 1) = npg sz₀ by unfold USERSTACK; omega]
  refine ⟨hpage, ?_⟩
  rw [← hbyte, ← byteAt_addPages (g := g₀) (n := 2) (p := permOf PTE_W) fresh hpage]
  unfold byteAt guardPage
  rw [Function.update_of_ne (by omega)]

end segments

end Xv6Cow.Kernel
