import Xv6Cow.Vm.Cow

/-! # User images: what a process sees, and `copyin`, `copyinstr`, `copyout` on it

An image is the memory of one process as the process knows it: for each virtual page its rights and
its bytes, with no physical pages behind them.  `image m f n` is the image of an address space.  The
copies between kernel and user are defined on images as they would be in a kernel where every page
is private, and proved to be what the functions of `vm.c` do to the image of the address space. -/

namespace Xv6Cow.Vm

open Function (update update_self update_of_ne)

/-! ### Images -/

/-- A user page: its rights and its bytes by offset. -/
structure UPage where
  perm : Perm
  bytes : Bytes

/-- The memory of a process, by virtual page. -/
abbrev Image := ℕ → Option UPage

/-- The bytes of the physical page at `p`, by offset. -/
def pageBytes (m : Bytes) (p : ℕ) : Bytes := fun off => if off < PGSIZE then m (p + off) else 0

/-- The image of the first `n` pages of a map. -/
def image (m : Bytes) (f : ℕ → Pte) (n : ℕ) : Image := fun v =>
  if v < n then some ⟨perm (f v), pageBytes m (pte2pa (f v))⟩ else none

namespace Image

/-- The bytes of the page at `va`, if user code may read it. -/
def user (g : Image) (va : ℕ) : Option Bytes :=
  match g (va / PGSIZE) with
  | some pg => if pg.perm.u then some pg.bytes else none
  | none => none

/-- `copyin` on an image: the return value and the bytes copied. -/
def copyinFrom (g : Image) : (fuel srcva len : ℕ) → ℤ × List UInt8
  | _, _, 0 => (0, [])
  | 0, _, _ => (-1, [])
  | fuel + 1, srcva, len =>
      let va0 := pgrounddown srcva
      match g.user va0 with
      | none => (-1, [])
      | some b =>
          let n := min (PGSIZE - (srcva - va0)) len
          let (r, rest) := copyinFrom g fuel (va0 + PGSIZE) (len - n)
          (r, b.read (srcva - va0) n ++ rest)

/-- `copyin`. -/
def copyin (g : Image) (srcva len : ℕ) : ℤ × List UInt8 := g.copyinFrom len srcva len

/-- `copyinstr` on an image. -/
def copyinstrFrom (g : Image) : (fuel srcva max : ℕ) → ℤ × List UInt8
  | _, _, 0 => (-1, [])
  | 0, _, _ => (-1, [])
  | fuel + 1, srcva, max =>
      let va0 := pgrounddown srcva
      match g.user va0 with
      | none => (-1, [])
      | some b =>
          let bs := b.read (srcva - va0) (min (PGSIZE - (srcva - va0)) max)
          if 0 ∈ bs then
            (0, bs.takeWhile (fun b => b != 0) ++ [0])
          else
            let (r, rest) := copyinstrFrom g fuel (va0 + PGSIZE) (max - min (PGSIZE - (srcva - va0)) max)
            (r, bs ++ rest)

/-- `copyinstr`. -/
def copyinstr (g : Image) (srcva max : ℕ) : ℤ × List UInt8 := g.copyinstrFrom max srcva max

/-- The image with other bytes at offset `off` of page `v`. -/
def put (g : Image) (v off : ℕ) (bs : List UInt8) : Image :=
  update g v ((g v).map (fun pg => { pg with bytes := pg.bytes.write off bs }))

/-- User code may write the page at `va`. -/
def writable (g : Image) (va : ℕ) : Bool :=
  match g (va / PGSIZE) with
  | some pg => pg.perm.u && pg.perm.w
  | none => false

/-- A load by user code. -/
def load (g : Image) (va : ℕ) : Option UInt8 :=
  match g (va / PGSIZE) with
  | some pg => if pg.perm.u && pg.perm.r then some (pg.bytes (va % PGSIZE)) else none
  | none => none

/-- A store by user code; none if it faults. -/
def store (g : Image) (va : ℕ) (b : UInt8) : Option Image :=
  if g.writable va then some (g.put (va / PGSIZE) (va % PGSIZE) [b]) else none

/-- `copyout` on an image where every page is private: the return value and the image it leaves. -/
def copyoutFrom (g : Image) : (fuel dstva : ℕ) → List UInt8 → ℤ × Image
  | _, _, [] => (0, g)
  | 0, _, _ => (-1, g)
  | fuel + 1, dstva, src =>
      let va0 := pgrounddown dstva
      if g.writable va0 then
        let n := min (PGSIZE - (dstva - va0)) src.length
        copyoutFrom (g.put (va0 / PGSIZE) (dstva - va0) (src.take n)) fuel (va0 + PGSIZE) (src.drop n)
      else (-1, g)

/-- `copyout`. -/
def copyout (g : Image) (dstva : ℕ) (src : List UInt8) : ℤ × Image := g.copyoutFrom src.length dstva src

end Image

section images
variable {m m' : Bytes} {f f' : ℕ → Pte} {n v p : ℕ}

theorem image_of_lt (h : v < n) : image m f n v = some ⟨perm (f v), pageBytes m (pte2pa (f v))⟩ :=
  if_pos h

theorem image_of_ge (h : n ≤ v) : image m f n v = none := if_neg (by omega)

theorem pageBytes_of_lt {off : ℕ} (h : off < PGSIZE) : pageBytes m p off = m (p + off) := if_pos h

theorem pageBytes_congr {q : ℕ} (h : ∀ off < PGSIZE, m' (q + off) = m (p + off)) :
    pageBytes m' q = pageBytes m p := by
  funext off
  unfold pageBytes
  split_ifs with hoff
  · exact h off hoff
  · rfl

theorem pageBytes_same (h : SameOn m m' p) : pageBytes m' p = pageBytes m p :=
  pageBytes_congr (fun _ hoff => h _ (by omega) (by omega))

theorem image_congr (h : ∀ v < n, perm (f' v) = perm (f v) ∧ pageBytes m' (pte2pa (f' v)) =
    pageBytes m (pte2pa (f v))) : image m' f' n = image m f n := by
  funext v
  unfold image
  split_ifs with hv
  · rw [(h v hv).1, (h v hv).2]
  · rfl

theorem read_pageBytes {off k : ℕ} (h : off + k ≤ PGSIZE) : (pageBytes m p).read off k =
    m.read (p + off) k := by
  unfold Bytes.read
  refine List.map_congr_left (fun i hi => ?_)
  have := List.mem_range.mp hi
  rw [pageBytes_of_lt (by omega), Nat.add_assoc]

theorem pageBytes_write {off : ℕ} {bs : List UInt8} (h : off + bs.length ≤ PGSIZE) :
    pageBytes (m.write (p + off) bs) p = (pageBytes m p).write off bs := by
  funext x
  unfold pageBytes Bytes.write
  split_ifs with h1 h2 h3 h3 h3
  · rw [show p + x - (p + off) = x - off by omega]
  · omega
  · omega
  · exact (if_pos h1).symm
  · omega
  · exact (if_neg h1).symm

theorem pgrounddown_le (va : ℕ) : pgrounddown va ≤ va ∧ va < pgrounddown va + PGSIZE := by
  unfold pgrounddown PGSIZE
  omega

end images

theorem Uvm.congr [Layout] {s t : Mach} {L L' : List ℕ} {X X' U U' : ℕ → ℕ} {a tf n : ℕ} {f : ℕ → Pte}
    (h : Uvm s L X U a tf n f) (ho : Own t L' (X' + nodes s.mem 2 a) (U' + span f 0 n))
    (hf : Frame s.mem t.mem (nodes s.mem 2 a + span f 0 n)) :
    Uvm t L' X' U' a tf n f ∧ image t.mem f n = image s.mem f n := by
  have hn : ∀ q, 0 < nodes s.mem 2 a q → SameOn s.mem t.mem q := fun q hq =>
    hf q (by simp only [Pi.add_apply]; omega)
  refine ⟨⟨h.tab.congr ?_ hn, h.space⟩, image_congr (fun v hv => ⟨rfl, pageBytes_same (hf _ ?_)⟩)⟩
  · exact ho
  · have := span_pos (f := f) hv
    simp only [Pi.add_apply]
    omega

/-! ### Reading user memory -/

section reading
variable [Layout] {s : Mach} {L : List ℕ} {X U : ℕ → ℕ} {a tf n v va : ℕ} {f : ℕ → Pte}

/-- The physical page that user code sees at `va`, or 0. -/
def userPa (f : ℕ → Pte) (va : ℕ) : ℕ :=
  if has (f (va / PGSIZE)) PTE_U then pte2pa (f (va / PGSIZE)) else 0

section
variable (h : Uvm s L X U a tf n f)
include h

theorem Uvm.user_ne_zero (hU : has (f v) PTE_U = true) : pte2pa (f v) ≠ 0 :=
  (h.tab.own.user_page (h.space.lt_of_user hU)).ne_zero

/-- `walkaddr` finds the pages that user code may read. -/
theorem wp_walkaddr {Q : ℕ → Mach → Prop} {E : Panic → Prop} :
    wp (walkaddr a va) Q E s ↔ Q (userPa f va) s := by
  unfold walkaddr userPa
  rcases Nat.lt_or_ge va MAXVA with hlt | hge
  · have hvn : va / PGSIZE < NVPN := by
      unfold NVPN PGSIZE
      unfold MAXVA at hlt
      omega
    simp only [if_neg (Nat.not_le.mpr hlt), wp_bind, wp_walk_false hlt]
    cases hU : has (f (va / PGSIZE)) PTE_U with
    | true =>
        have hv := h.space.lt_of_user hU
        have hs := h.slot_ne_zero hv
        have hvalid := (h.space.user _ hv).valid
        simp [if_neg hs, h.tab.pteAt_slot hvn hs, hvalid, hU]
    | false =>
        rcases eq_or_ne (slot s.mem 2 a (va / PGSIZE)) 0 with hs | hs
        · simp [hs]
        · simp only [if_neg hs, wp_bind, wp_ldpte, h.tab.pteAt_slot hvn hs, hU, Bool.not_false,
            if_true, Bool.false_eq_true, if_false]
          split_ifs <;> rw [wp_pure]
  · rw [if_pos hge, h.not_user hge, wp_pure]
    simp

theorem image_user (m : Bytes) :
    (image m f n).user va = if userPa f va = 0 then none else some (pageBytes m (userPa f va)) := by
  unfold Image.user userPa
  cases hU : has (f (va / PGSIZE)) PTE_U with
  | true =>
      rw [image_of_lt (h.space.lt_of_user hU), if_pos rfl, if_neg (h.user_ne_zero hU)]
      simp [perm, hU]
  | false =>
      rcases Nat.lt_or_ge (va / PGSIZE) n with hv | hv
      · rw [image_of_lt hv]
        simp [perm, hU]
      · rw [image_of_ge hv]
        simp

theorem wp_copyinFrom {Q : ℤ × List UInt8 → Mach → Prop} {E : Panic → Prop} {fuel srcva len : ℕ} :
    wp (copyinFrom a fuel srcva len) Q E s ↔ Q ((image s.mem f n).copyinFrom fuel srcva len) s := by
  induction fuel generalizing srcva len Q with
  | zero => cases len <;> simp [copyinFrom, Image.copyinFrom]
  | succ fuel ih =>
      cases len with
      | zero => simp [copyinFrom, Image.copyinFrom]
      | succ len =>
          obtain ⟨hle, hlt⟩ := pgrounddown_le srcva
          simp only [copyinFrom, Image.copyinFrom, wp_bind, wp_walkaddr h, image_user h]
          rcases eq_or_ne (userPa f (pgrounddown srcva)) 0 with h0 | h0
          · simp [h0]
          · simp only [if_neg h0, wp_bind, wp_get, ih, wp_pure]
            rw [read_pageBytes (by omega)]

theorem wp_copyinstrFrom {Q : ℤ × List UInt8 → Mach → Prop} {E : Panic → Prop}
    {fuel srcva max : ℕ} :
    wp (copyinstrFrom a fuel srcva max) Q E s ↔
      Q ((image s.mem f n).copyinstrFrom fuel srcva max) s := by
  induction fuel generalizing srcva max Q with
  | zero => cases max <;> simp [copyinstrFrom, Image.copyinstrFrom]
  | succ fuel ih =>
      cases max with
      | zero => simp [copyinstrFrom, Image.copyinstrFrom]
      | succ max =>
          obtain ⟨hle, hlt⟩ := pgrounddown_le srcva
          simp only [copyinstrFrom, Image.copyinstrFrom, wp_bind, wp_walkaddr h, image_user h]
          rcases eq_or_ne (userPa f (pgrounddown srcva)) 0 with h0 | h0
          · simp [h0]
          · simp only [if_neg h0, wp_bind, wp_get]
            rw [read_pageBytes (by omega)]
            split_ifs with hz
            · rw [wp_pure]
            · simp [ih]

theorem wp_copyin {Q : ℤ × List UInt8 → Mach → Prop} {E : Panic → Prop} {srcva len : ℕ} :
    wp (copyin a srcva len) Q E s ↔ Q ((image s.mem f n).copyin srcva len) s := wp_copyinFrom h

theorem wp_copyinstr {Q : ℤ × List UInt8 → Mach → Prop} {E : Panic → Prop} {srcva max : ℕ} :
    wp (copyinstr a srcva max) Q E s ↔ Q ((image s.mem f n).copyinstr srcva max) s := wp_copyinstrFrom h

end

end reading

/-! ### Writing user memory -/

section touched
variable {s t t' : Mach} {X U : ℕ → ℕ} {a n : ℕ} {f f' f'' : ℕ → Pte} {cur : Option ℕ}

/-- What a write by its process may do to an address space: the rights stay, and an entry for a page
that others map is an entry for the page it was for before. -/
structure Touched (s t : Mach) (X U : ℕ → ℕ) (n : ℕ) (f f' : ℕ → Pte) : Prop where
  keeps : Keeps s t (X + U)
  perm : ∀ v < n, perm (f' v) = perm (f v)
  shared : ∀ v < n, 0 < U (pte2pa (f' v)) → pte2pa (f' v) = pte2pa (f v)
  cow : ∀ v < n, has (f' v) PTE_COW = true → has (f v) PTE_COW = true

theorem Touched.of_keeps (h : Keeps s t (X + U)) : Touched s t X U n f f :=
  ⟨h, fun _ _ => rfl, fun _ _ _ => rfl, fun _ _ h => h⟩

theorem Touched.of_frame {m : Bytes} (h : Frame s.mem m (X + U)) :
    Touched s { s with mem := m } X U n f f :=
  Touched.of_keeps ⟨h, List.suffix_refl _⟩

theorem Touched.refl (s : Mach) (X U : ℕ → ℕ) (n : ℕ) (f : ℕ → Pte) : Touched s s X U n f f :=
  Touched.of_keeps (Keeps.refl _ _)

theorem Touched.trans (h : Touched s t X U n f f') (h' : Touched t t' X U n f' f'') :
    Touched s t' X U n f f'' := by
  refine ⟨h.keeps.trans h'.keeps, fun v hv => (h'.perm v hv).trans (h.perm v hv), fun v hv hU => ?_,
    fun v hv hc => h.cow v hv (h'.cow v hv hc)⟩
  have heq := h'.shared v hv hU
  rw [heq] at hU ⊢
  exact h.shared v hv hU

/-- `copyout` works on the current process, or on a table without copy-on-write pages. -/
def Current (cur : Option ℕ) (a n : ℕ) (f : ℕ → Pte) : Prop :=
  cur = some a ∨ ∀ v < n, has (f v) PTE_COW = false

theorem Current.touched (h : Current cur a n f) (ht : Touched s t X U n f f') : Current cur a n f' := by
  refine h.imp id (fun hno v hv => ?_)
  by_contra hc
  have := ht.cow v hv (by simpa using hc)
  rw [hno v hv] at this
  exact absurd this (by simp)

end touched

section writing
variable [Layout] {s t t' : Mach} {L L' : List ℕ} {X U : ℕ → ℕ} {a tf n v : ℕ} {f f' : ℕ → Pte}
  {e : Pte} {cur : Option ℕ}

/-- An address space whose writable pages are mapped by nobody else. -/
structure User (s : Mach) (L : List ℕ) (X U : ℕ → ℕ) (a tf n : ℕ) (f : ℕ → Pte) : Prop where
  uvm : Uvm s L X U a tf n f
  excl : ∀ v < n, has (f v) PTE_W = true → U (pte2pa (f v)) = 0

section
variable (h : Resolved s t X U a tf n f v e)
include h

theorem Resolved.image_eq (hv : v < n) :
    image t.mem (update f v e) n = image s.mem f n := by
  refine image_congr (fun w hw => ?_)
  rcases eq_or_ne w v with rfl | hwv
  · rw [update_self]
    exact ⟨h.entry.perm, pageBytes_congr h.bytes⟩
  · rw [update_of_ne hwv]
    have hpos := span_pos (f := f) hw
    exact ⟨rfl, pageBytes_same (h.keeps.frame _ (by simp only [Pi.add_apply]; omega))⟩

theorem Resolved.excl (hu : User s L X U a tf n f) :
    ∀ w < n, has (update f v e w) PTE_W = true → U (pte2pa (update f v e w)) = 0 := by
  intro w hw hW
  rcases eq_or_ne w v with rfl | hwv
  · rw [update_self]
    exact h.only
  · rw [update_of_ne hwv] at hW ⊢
    exact hu.excl w hw hW

theorem Resolved.user (hu : User s L X U a tf n f) :
    ∃ L', User t L' X U a tf n (update f v e) := by
  obtain ⟨L', huvm⟩ := h.uvm
  exact ⟨L', huvm, h.excl hu⟩

theorem Resolved.touched : Touched s t X U n f (update f v e) := by
  have hC : has e PTE_COW = false := by
    by_contra hC
    exact h.entry.user.excl ⟨h.entry.write, by simpa using hC⟩
  refine ⟨h.keeps.mono (fun p hp => ?_), fun w hw => ?_, fun w hw hU => ?_, fun w hw hc => ?_⟩
  · simp only [Pi.add_apply] at hp ⊢
    omega
  all_goals rcases eq_or_ne w v with rfl | hwv
  · rw [update_self]
    exact h.entry.perm
  · rw [update_of_ne hwv]
  · rw [update_self, h.only] at hU
    exact absurd hU (lt_irrefl 0)
  · rw [update_of_ne hwv]
  · rw [update_self, hC] at hc
    exact absurd hc (by simp)
  · rwa [update_of_ne hwv] at hc

end

theorem Uvm.put (h : Uvm s L X U a tf n f) (hv : v < n) (hU : U (pte2pa (f v)) = 0) (off : ℕ)
    (bs : List UInt8) (hoff : off + bs.length ≤ PGSIZE) :
    Uvm { s with mem := s.mem.write (pte2pa (f v) + off) bs } L X U a tf n f ∧
    Frame s.mem (s.mem.write (pte2pa (f v) + off) bs) (X + U) ∧
    Drawn s { s with mem := s.mem.write (pte2pa (f v) + off) bs } L L ∧
    image (s.mem.write (pte2pa (f v) + off) bs) f n = (image s.mem f n).put v off bs := by
  have hpos := span_pos (f := f) hv
  have hown := h.tab.own
  have hpage := hown.user_page hv
  have hx := hown.acct.shared_not_excl (p := pte2pa (f v)) (by simp only [Pi.add_apply]; omega)
  simp only [Pi.add_apply] at hx
  have hout : ∀ x, x < pte2pa (f v) ∨ pte2pa (f v) + PGSIZE ≤ x →
      s.mem.write (pte2pa (f v) + off) bs x = s.mem x :=
    fun x hx => Bytes.write_of_not_mem (by omega)
  have hsame : ∀ q, Page q → q ≠ pte2pa (f v) →
      SameOn s.mem (s.mem.write (pte2pa (f v) + off) bs) q := fun q hq hne =>
    sameOn_of_write hpage hq hne hout
  have hnodes : ∀ q, 0 < nodes s.mem 2 a q → SameOn s.mem (s.mem.write (pte2pa (f v) + off) bs) q :=
      fun q hq => by
    refine hsame q (hown.tree.page q hq) ?_
    rintro rfl
    omega
  refine ⟨⟨h.tab.congr ?_ hnodes, h.space⟩, fun q hq => ?_, fun q hq => ⟨hq, ?_⟩, ?_⟩
  · exact hown.write (p := pte2pa (f v)) (by simp only [Pi.add_apply]; omega) hout
  · simp only [Pi.add_apply] at hq
    refine hsame q (hown.page (by simp only [Pi.add_apply]; omega)) ?_
    rintro rfl
    omega
  · refine hsame q (hown.acct.page_of_free q hq) ?_
    rintro rfl
    have := hown.acct.unowned _ hq
    simp only [Pi.add_apply] at this
    omega
  · funext w
    unfold Image.put
    rcases eq_or_ne w v with rfl | hwv
    · rw [update_self, image_of_lt hv, image_of_lt hv, pageBytes_write hoff]
      rfl
    · rw [update_of_ne hwv]
      rcases Nat.lt_or_ge w n with hw | hw
      · rw [image_of_lt hw, image_of_lt hw, pageBytes_same]
        exact hsame _ (hown.user_page hw) (fun he => hwv (h.space.inj w v hw hv he))
      · rw [image_of_ge hw, image_of_ge hw]

theorem User.put (h : User s L X U a tf n f) (hv : v < n) (hW : has (f v) PTE_W = true) (off : ℕ)
    (bs : List UInt8) (hoff : off + bs.length ≤ PGSIZE) :
    User { s with mem := s.mem.write (pte2pa (f v) + off) bs } L X U a tf n f ∧
    Frame s.mem (s.mem.write (pte2pa (f v) + off) bs) (X + U) ∧
    Drawn s { s with mem := s.mem.write (pte2pa (f v) + off) bs } L L ∧
    image (s.mem.write (pte2pa (f v) + off) bs) f n = (image s.mem f n).put v off bs := by
  obtain ⟨h1, h2, h3, h4⟩ := h.uvm.put hv (h.excl v hv hW) off bs hoff
  exact ⟨⟨h1, h.excl⟩, h2, h3, h4⟩

/-- Writing to a page of the kernel leaves an address space alone. -/
theorem User.kernelWrite {m : Bytes} (h : User s L X U a tf n f) {pi : ℕ} (hp : 0 < X pi)
    (hm : ∀ x, x < pi ∨ pi + PGSIZE ≤ x → m x = s.mem x) : User { s with mem := m } L X U a tf n f := by
  have hown := h.uvm.tab.own
  have hpos : 0 < (X + nodes s.mem 2 a) pi + (U + span f 0 n) pi := by
    simp only [Pi.add_apply]
    omega
  have hexcl := hown.acct.excl pi (by simp only [Pi.add_apply]; omega)
  simp only [Pi.add_apply] at hexcl
  refine ⟨(h.uvm.congr (hown.write hpos hm) (fun q hq => ?_)).1, h.excl⟩
  simp only [Pi.add_apply] at hq
  refine sameOn_of_write (hown.page hpos) (hown.page (by simp only [Pi.add_apply]; omega)) ?_ hm
  rintro rfl
  omega

theorem image_writable (hs : Space f tf n) (m : Bytes) (va : ℕ) :
    (image m f n).writable va = (has (f (va / PGSIZE)) PTE_U &&
      (has (f (va / PGSIZE)) PTE_W || has (f (va / PGSIZE)) PTE_COW)) := by
  unfold Image.writable
  rcases Nat.lt_or_ge (va / PGSIZE) n with hv | hv
  · rw [image_of_lt hv]
    rfl
  · rw [image_of_ge hv]
    rw [hs.not_user hv]
    rfl

end writing

end Xv6Cow.Vm
