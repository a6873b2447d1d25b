import Xv6Cow.Vm.Image

/-! # `copyout`

`copyout` writes page after page, and resolves a copy-on-write page before it writes it.  What it
does is said in two ways.  Without the free list: unless `kalloc` fails, it does to the image what a
write to private pages does (`Written`).  With it: it writes a prefix of the range that ends at a
page boundary, and it writes all of it exactly if every page that the range meets may be written and
the free list has a page for each of them that is shared (`Stored`). -/

namespace Xv6Cow.Vm

open Finset
open Function (update update_self update_of_ne)

/-! ### Bytes of an image by address -/

namespace Image

/-- The image with the bytes `bs` at the addresses from `va` on, as far as there are pages. -/
def poke (g : Image) (va : ℕ) (bs : List UInt8) : Image := fun v =>
  (g v).map (fun pg => { pg with bytes := fun off =>
    if off < PGSIZE ∧ va ≤ v * PGSIZE + off then bs.getD (v * PGSIZE + off - va) (pg.bytes off) else pg.bytes off })

/-- User code reads the bytes `bs` at the addresses from `va` on. -/
def Holds (g : Image) (va : ℕ) (bs : List UInt8) : Prop :=
  ∀ i (hi : i < bs.length), ∃ pg, g ((va + i) / PGSIZE) = some pg ∧ pg.perm.u = true ∧
    pg.perm.r = true ∧ pg.bytes ((va + i) % PGSIZE) = bs[i]

theorem Holds.load {g : Image} {va i : ℕ} {bs : List UInt8} (h : g.Holds va bs)
    (hi : i < bs.length) : g.load (va + i) = some bs[i] := by
  obtain ⟨pg, hpg, hu, hr, hb⟩ := h i hi
  rw [Image.load, hpg]
  simp [hu, hr, hb]

variable {g : Image} {va vb : ℕ} {bs cs : List UInt8}

@[simp] theorem poke_nil : g.poke va [] = g := by
  funext v
  simp [poke]

/-- Writing twice, where the second write begins at the end of the first. -/
theorem poke_poke (h : cs = [] ∨ vb = va + bs.length) : (g.poke va bs).poke vb cs =
    g.poke va (bs ++ cs) := by
  obtain rfl | rfl := h
  · rw [poke_nil, List.append_nil]
  · funext v
    unfold poke
    cases g v with
    | none => rfl
    | some pg =>
        simp only [Option.map_some, Option.some.injEq, UPage.mk.injEq, true_and]
        funext off
        rcases Nat.lt_or_ge off PGSIZE with hoff | hoff
        · simp only [hoff, true_and]
          rcases Nat.lt_or_ge (v * PGSIZE + off) va with hx | hx
          · rw [if_neg (by omega), if_neg (by omega), if_neg (by omega)]
          · rw [if_pos hx, if_pos hx]
            rcases Nat.lt_or_ge (v * PGSIZE + off) (va + bs.length) with hlt | hge
            · rw [if_neg (by omega), List.getD_append _ _ _ _ (by omega)]
            · rw [if_pos hge, List.getD_append_right _ _ _ _ (by omega),
                List.getD_eq_default bs _ (by omega), Nat.sub_sub]
        · simp [Nat.not_lt.mpr hoff]

theorem put_eq_poke (h : va % PGSIZE + bs.length ≤ PGSIZE) : g.put (va / PGSIZE) (va % PGSIZE) bs =
    g.poke va bs := by
  funext v
  unfold put poke
  rcases eq_or_ne v (va / PGSIZE) with rfl | hv
  · rw [update_self]
    cases g (va / PGSIZE) with
    | none => rfl
    | some pg =>
        simp only [Option.map_some, Option.some.injEq, UPage.mk.injEq, true_and]
        funext off
        have hva := Nat.div_add_mod' va PGSIZE
        unfold Bytes.write
        rcases Nat.lt_or_ge off (va % PGSIZE) with hlo | hlo
        · rw [if_neg (by omega), if_neg (by omega)]
        · rcases Nat.lt_or_ge off (va % PGSIZE + bs.length) with hhi | hhi
          · rw [if_pos ⟨hlo, hhi⟩, if_pos ⟨by omega, by omega⟩, show va / PGSIZE * PGSIZE +
              off - va =
              off - va % PGSIZE by omega, List.getD_eq_getElem _ _ (by omega), List.getD_eq_getElem _ _ (by omega)]
          · rw [if_neg (by omega), List.getD_eq_default _ _ (by omega), ite_self]
  · rw [update_of_ne hv]
    cases g v with
    | none => rfl
    | some pg =>
        refine congrArg some (congrArg (UPage.mk pg.perm) (funext (fun off => ?_)))
        split_ifs with hx
        · rw [List.getD_eq_default _ _ (by unfold PGSIZE at *; omega)]
        · rfl

theorem copyinFrom_holds {fuel : ℕ} (h : g.Holds va bs) (hfuel : bs.length ≤ fuel) :
    g.copyinFrom fuel va bs.length = (0, bs) := by
  induction fuel generalizing va bs with
  | zero =>
      obtain rfl := List.length_eq_zero_iff.mp (Nat.le_zero.mp hfuel)
      rfl
  | succ fuel ih =>
      cases hbs : bs with
      | nil => rfl
      | cons b rest =>
          rw [← hbs]
          obtain ⟨hle, hlt⟩ := pgrounddown_le va
          have hpos : 0 < bs.length := by rw [hbs]; exact Nat.succ_pos _
          obtain ⟨pg, hpg, hu, -⟩ := h 0 hpos
          rw [Nat.add_zero] at hpg
          have huser : g.user (pgrounddown va) = some pg.bytes := by
            unfold Image.user
            rw [show pgrounddown va / PGSIZE = va / PGSIZE from mul_div_pgsize _, hpg]
            exact if_pos hu
          set n := min (PGSIZE - (va - pgrounddown va)) bs.length with hn
          have hread : pg.bytes.read (va - pgrounddown va) n = bs.take n := by
            refine List.ext_getElem (by simp [Bytes.read, hn]) (fun i hi hi' => ?_)
            rw [List.length_take] at hi'
            obtain ⟨pg', hpg', -, -, hb⟩ := h i (by omega)
            have hsame : (va + i) / PGSIZE = va / PGSIZE ∧ (va + i) % PGSIZE = va - pgrounddown va +
                i := by
              unfold pgrounddown PGSIZE at *
              omega
            rw [hsame.1, hpg] at hpg'
            rw [hsame.2, ← Option.some.inj hpg'] at hb
            simpa [Bytes.read] using hb
          have hrest : g.Holds (pgrounddown va + PGSIZE) (bs.drop n) := by
            intro i hi
            rw [List.length_drop] at hi
            obtain ⟨pg', h1, h2, h3, h4⟩ := h (n + i) (by omega)
            rw [show va + (n + i) = pgrounddown va + PGSIZE + i by omega] at h1 h4
            exact ⟨pg', h1, h2, h3, by rw [h4, List.getElem_drop]⟩
          have hind := ih hrest (by rw [List.length_drop]; omega)
          rw [List.length_drop] at hind
          obtain ⟨len, hlen⟩ := Nat.exists_eq_succ_of_ne_zero hpos.ne'
          rw [hlen, copyinFrom, ← hlen, huser]
          · simp [← hn, hind, hread]
          · exact Nat.succ_ne_zero len

end Image

/-! ### The pages of a range -/

/-- The virtual pages that meet `[va, va + len)`. -/
def pagesOf (va len : ℕ) : Finset ℕ := (range len).image (fun k => (va + k) / PGSIZE)

theorem mem_pagesOf {va len v : ℕ} : v ∈ pagesOf va len ↔ ∃ k < len, (va + k) / PGSIZE = v := by
  simp [pagesOf]

/-- The first page of a range, and the pages of the rest of it. -/
theorem pagesOf_step (va : ℕ) {len : ℕ} (h : 0 < len) :
    pagesOf va len = insert (va / PGSIZE)
      (pagesOf (pgrounddown va + PGSIZE) (len - min (PGSIZE - (va - pgrounddown va)) len)) ∧
        va / PGSIZE ∉ pagesOf (pgrounddown va + PGSIZE)
          (len - min (PGSIZE - (va - pgrounddown va)) len) := by
  obtain ⟨hle, hlt⟩ := pgrounddown_le va
  have hfirst : ∀ k, va / PGSIZE < (pgrounddown va + PGSIZE + k) / PGSIZE := fun k => by
    unfold pgrounddown PGSIZE
    omega
  refine ⟨Finset.ext (fun v => ?_), fun hmem => ?_⟩
  · simp only [mem_insert, mem_pagesOf]
    constructor
    · rintro ⟨k, hk, rfl⟩
      rcases Nat.lt_or_ge k (PGSIZE - (va - pgrounddown va)) with hin | hout
      · left
        unfold pgrounddown PGSIZE at *
        omega
      · exact Or.inr ⟨k - (PGSIZE - (va - pgrounddown va)), by omega, by congr 1; omega⟩
    · rintro (rfl | ⟨k, hk, rfl⟩)
      · exact ⟨0, h, rfl⟩
      · exact ⟨PGSIZE - (va - pgrounddown va) + k, by omega, by congr 1; omega⟩
  · obtain ⟨k, -, hk⟩ := mem_pagesOf.mp hmem
    exact (hfirst k).ne' hk

namespace Image

variable {bs : List UInt8}

theorem writable_put (g : Image) (v off : ℕ) (bs : List UInt8) (va : ℕ) :
    (g.put v off bs).writable va = g.writable va := by
  unfold writable put
  rcases eq_or_ne (va / PGSIZE) v with rfl | hv
  · rw [update_self]
    cases g (va / PGSIZE) <;> rfl
  · rw [update_of_ne hv]

/-- `copyout` on an image: it writes the range if each of its pages may be written, and fails
otherwise. -/
theorem copyoutFrom_eq {fuel : ℕ} (g : Image) (va : ℕ) (hfuel : bs.length ≤ fuel) :
    ((∀ v ∈ pagesOf va bs.length, g.writable (v * PGSIZE) = true) ∧ g.copyoutFrom fuel va bs =
      (0, g.poke va bs)) ∨ ((∃ v ∈ pagesOf va bs.length, g.writable (v * PGSIZE) = false) ∧
        (g.copyoutFrom fuel va bs).1 = -1) := by
  induction fuel generalizing g va bs with
  | zero =>
      obtain rfl := List.length_eq_zero_iff.mp (Nat.le_zero.mp hfuel)
      exact Or.inl ⟨fun v hv => by simp [pagesOf] at hv, by rw [copyoutFrom, poke_nil]⟩
  | succ fuel ih =>
      cases bs with
      | nil => exact Or.inl ⟨fun v hv => by simp [pagesOf] at hv, by rw [copyoutFrom, poke_nil]⟩
      | cons b bs =>
          have hpos : 0 < (b :: bs).length := Nat.succ_pos _
          obtain ⟨hpages, -⟩ := pagesOf_step va hpos
          obtain ⟨hle, hlt⟩ := pgrounddown_le va
          have hoff : va - pgrounddown va = va % PGSIZE := by
            unfold pgrounddown PGSIZE
            omega
          have hfirst : pgrounddown va = va / PGSIZE * PGSIZE := rfl
          set n := min (PGSIZE - (va - pgrounddown va)) (b :: bs).length with hn
          rw [hpages]
          simp only [copyoutFrom, ← hn]
          cases hw : g.writable (pgrounddown va) with
          | false =>
              refine Or.inr ⟨⟨_, mem_insert_self _ _, by rw [← hfirst, hw]⟩, ?_⟩
              rw [if_neg Bool.false_ne_true]
          | true =>
              rw [if_pos rfl]
              have hdrop : ((b :: bs).drop n).length = (b :: bs).length - n := List.length_drop
              have hlen : ((b :: bs).take n).length = n := by
                rw [List.length_take]
                omega
              have hput : g.put (pgrounddown va / PGSIZE) (va - pgrounddown va) ((b :: bs).take n) =
                  g.poke va ((b :: bs).take n) := by
                rw [show pgrounddown va / PGSIZE = va / PGSIZE from mul_div_pgsize _, hoff,
                  put_eq_poke (by omega)]
              have hrest :=
                @ih ((b :: bs).drop n) (g.put (pgrounddown va / PGSIZE) (va - pgrounddown va)
                  ((b :: bs).take n)) (pgrounddown va + PGSIZE) (by omega)
              simp only [writable_put, hdrop] at hrest
              rcases hrest with ⟨h1, h2⟩ | ⟨⟨v, hv, h1⟩, h2⟩
              · refine Or.inl ⟨(forall_mem_insert _ _ _).mpr ⟨by rw [← hfirst, hw], h1⟩, ?_⟩
                rw [h2, hput, poke_poke, List.take_append_drop]
                rw [hlen]
                rcases Nat.lt_or_ge n (b :: bs).length with hin | hout
                · right
                  omega
                · left
                  rw [List.drop_eq_nil_of_le hout]
              · exact Or.inr ⟨⟨v, mem_insert_of_mem hv, h1⟩, h2⟩

end Image

section fits
variable {s t t' : Mach} {L L' : List ℕ} {U : ℕ → ℕ} {n v va len : ℕ} {f f' : ℕ → Pte} {S : Finset ℕ}

/-- `copyout` may write through the entry, after a fault if it is copy-on-write. -/
def Writable (e : Pte) : Prop := has e PTE_U = true ∧ (has e PTE_W = true ∨ has e PTE_COW = true)

theorem Touched.writable {X : ℕ → ℕ} (h : Touched s t X U n f f') (hv : v < n)
    (hw : Writable (f v)) : Writable (f' v) := by
  have hperm := h.perm v hv
  unfold Vm.perm at hperm
  rw [Perm.mk.injEq] at hperm
  refine ⟨by rw [hperm.2.2.2]; exact hw.1, ?_⟩
  rw [← Bool.or_eq_true, hperm.2.1, Bool.or_eq_true]
  exact hw.2

/-- The page is copy-on-write and mapped by others too. -/
def Shared (U : ℕ → ℕ) (e : Pte) : Prop := has e PTE_COW = true ∧ 0 < U (pte2pa e)

instance (U : ℕ → ℕ) (e : Pte) : Decidable (Shared U e) := inferInstanceAs (Decidable (_ ∧ _))

/-- The number of pages that a write to the pages `S` copies. -/
def copies (U : ℕ → ℕ) (f : ℕ → Pte) (S : Finset ℕ) : ℕ := (S.filter (fun v => Shared U (f v))).card

/-- Every page of the range may be written, and there are free pages for the copies. -/
def Fits (U : ℕ → ℕ) (f : ℕ → Pte) (L : List ℕ) (va len : ℕ) : Prop :=
  (∀ v ∈ pagesOf va len, Writable (f v)) ∧ copies U f (pagesOf va len) ≤ L.length

theorem copies_insert (h : v ∉ S) : copies U f (insert v S) = copies U f S +
    if Shared U (f v) then 1 else 0 := by
  unfold copies
  rw [filter_insert]
  split_ifs with hs
  · rw [card_insert_of_notMem (fun hm => h (mem_of_mem_filter v hm))]
  · rfl

theorem copies_congr (h : ∀ v ∈ S, f' v = f v) : copies U f' S = copies U f S := by
  unfold copies
  rw [filter_congr (fun v hv => by rw [h v hv])]

theorem Fits.step (hlen : 0 < len) (hw : Writable (f (va / PGSIZE)))
    (hsame : ∀ v, v ≠ va / PGSIZE → f' v = f v)
    (hL : L.length = L'.length + if Shared U (f (va / PGSIZE)) then 1 else 0) : Fits U f L va len ↔
      Fits U f' L' (pgrounddown va + PGSIZE) (len - min (PGSIZE - (va - pgrounddown va)) len) := by
  obtain ⟨hpages, hfirst⟩ := pagesOf_step va hlen
  have hrest : ∀ v ∈ pagesOf (pgrounddown va + PGSIZE)
      (len - min (PGSIZE - (va - pgrounddown va)) len), f' v = f v :=
    fun v hv => hsame v (fun he => hfirst (he ▸ hv))
  unfold Fits
  rw [hpages, copies_insert hfirst, copies_congr hrest, forall_mem_insert, hL]
  constructor
  · rintro ⟨⟨-, h1⟩, h2⟩
    exact ⟨fun v hv => by rw [hrest v hv]; exact h1 v hv, by omega⟩
  · rintro ⟨h1, h2⟩
    exact ⟨⟨hw, fun v hv => by rw [← hrest v hv]; exact h1 v hv⟩, by omega⟩

theorem Fits.first (hlen : 0 < len) (h : Fits U f L va len) :
    Writable (f (va / PGSIZE)) ∧ (Shared U (f (va / PGSIZE)) → L ≠ []) := by
  have hmem : va / PGSIZE ∈ pagesOf va len := mem_pagesOf.mpr ⟨0, hlen, rfl⟩
  refine ⟨h.1 _ hmem, fun hs hL => ?_⟩
  have hcard : copies U f (pagesOf va len) ≤ 0 := by simpa [hL] using h.2
  have := card_eq_zero.mp (Nat.le_zero.mp hcard)
  exact absurd (mem_filter.mpr ⟨hmem, hs⟩) (by rw [this]; exact notMem_empty _)

theorem Fits.zero : Fits U f L va 0 := by simp [Fits, pagesOf, copies]

theorem pagesOf_add (va k m : ℕ) : pagesOf va (k + m) = pagesOf va k ∪ pagesOf (va + k) m := by
  ext v
  simp only [mem_union, mem_pagesOf]
  constructor
  · rintro ⟨i, hi, rfl⟩
    rcases Nat.lt_or_ge i k with hlt | hge
    · exact Or.inl ⟨i, hlt, rfl⟩
    · exact Or.inr ⟨i - k, by omega, by rw [show va + k + (i - k) = va + i by omega]⟩
  · rintro (⟨i, hi, rfl⟩ | ⟨i, hi, rfl⟩)
    · exact ⟨i, by omega, rfl⟩
    · exact ⟨k + i, by omega, by rw [Nat.add_assoc]⟩

theorem Fits.left {k m : ℕ} (h : Fits U f L va (k + m)) : Fits U f L va k := by
  rw [Fits, pagesOf_add] at h
  exact ⟨fun v hv => h.1 v (mem_union_left _ hv),
    (card_le_card (filter_subset_filter _ subset_union_left)).trans h.2⟩

/-- What the rest of a range needs once the first `k` bytes of it are written. -/
theorem Fits.rest {k m : ℕ} (h : Fits U f L va k) (hsame : ∀ v, v ∉ pagesOf va k → f' v = f v)
    (hset : ∀ v ∈ pagesOf va k, Writable (f' v) ∧ has (f' v) PTE_COW = false)
    (hL : L.length = L'.length + copies U f (pagesOf va k)) :
    Fits U f L va (k + m) ↔ Fits U f' L' (va + k) m := by
  have hsplit : copies U f (pagesOf va k ∪ pagesOf (va + k) m) =
      copies U f (pagesOf va k) + copies U f (pagesOf (va + k) m \ pagesOf va k) := by
    unfold copies
    rw [← union_sdiff_self_eq_union, filter_union,
      card_union_of_disjoint (disjoint_filter_filter disjoint_sdiff)]
  have hnone : copies U f' (pagesOf (va + k) m ∩ pagesOf va k) = 0 := by
    refine card_eq_zero.mpr (filter_eq_empty_iff.mpr (fun v hv hs => ?_))
    have hC := (hset v (mem_of_mem_inter_right hv)).2
    rw [hs.1] at hC
    exact absurd hC (by simp)
  have hrest : copies U f' (pagesOf (va + k) m) = copies U f (pagesOf (va + k) m \ pagesOf va k) := by
    rw [← copies_congr (fun v hv => hsame v (mem_sdiff.mp hv).2), ← Nat.zero_add
      (copies U f' (_ \ _)), ← hnone]
    unfold copies
    rw [← card_union_of_disjoint (disjoint_filter_filter
      (disjoint_sdiff_inter _ _).symm), ← filter_union, union_comm, sdiff_union_inter]
  unfold Fits
  rw [pagesOf_add, hsplit, hrest, hL]
  constructor
  · rintro ⟨h1, h2⟩
    refine ⟨fun v hv => ?_, by omega⟩
    by_cases hv' : v ∈ pagesOf va k
    · exact (hset v hv').1
    · rw [hsame v hv']
      exact h1 v (mem_union_right _ hv)
  · rintro ⟨h1, h2⟩
    refine ⟨fun v hv => ?_, by omega⟩
    by_cases hv' : v ∈ pagesOf va k
    · exact h.1 v hv'
    · rw [← hsame v hv']
      exact h1 v ((mem_union.mp hv).resolve_left hv')

/-- What finding the entry of page `v` cost: a page if it was for a shared page, and it fails only
if the page may not be written or there is none to take. -/
structure Paid (L L' : List ℕ) (U : ℕ → ℕ) (f f' : ℕ → Pte) (v : ℕ) (r : Option ℕ) : Prop where
  same : ∀ w, w ≠ v → f' w = f w
  lost : r = none → ¬ Writable (f v) ∨ (Shared U (f v) ∧ L = [])
  taken : r ≠ none → L.length = L'.length + if Shared U (f v) then 1 else 0

theorem Paid.of_lost (h : ¬ Writable (f v) ∨ (Shared U (f v) ∧ L = [])) : Paid L L' U f f v none :=
  ⟨fun _ _ => rfl, fun _ => h, fun hr => absurd rfl hr⟩

/-- What `copyout` has done when it returns `r`: it has written the first `k` bytes, and if these
are all it has taken a page for each shared page of the range, which is private now. -/
structure Stored (s t : Mach) (L L' : List ℕ) (U : ℕ → ℕ) (n : ℕ) (f f' : ℕ → Pte) (dstva : ℕ)
    (src : List UInt8) (r : ℤ) (k : ℕ) : Prop where
  image : image t.mem f' n = (image s.mem f n).poke dstva (src.take k)
  same : ∀ v, v ∉ pagesOf dstva src.length → f' v = f v
  spent : r = 0 → L.length = L'.length + copies U f (pagesOf dstva src.length)
  settled : r = 0 → ∀ v ∈ pagesOf dstva src.length, has (f' v) PTE_COW = false
  result : (r = 0 ∧ k = src.length ∧ Fits U f L dstva src.length) ∨
    (r = -1 ∧ k < src.length ∧ (k = 0 ∨ PGSIZE ∣ dstva + k) ∧ ¬ Fits U f L dstva src.length)

theorem Stored.nil (s : Mach) (L : List ℕ) (U : ℕ → ℕ) (n : ℕ) (f : ℕ → Pte) (dstva : ℕ) :
    Stored s s L L U n f f dstva [] 0 0 := by
  refine ⟨by simp, fun _ _ => rfl, fun _ => by simp [pagesOf, copies], fun _ v hv => ?_,
    Or.inl ⟨rfl, rfl, Fits.zero⟩⟩
  simp [pagesOf] at hv

theorem Stored.stop {dstva : ℕ} {src : List UInt8}
    (himage : Vm.image t.mem f' n = Vm.image s.mem f n) (hsrc : 0 < src.length)
    (hsame : ∀ v, v ≠ dstva / PGSIZE → f' v = f v)
    (hno : ¬ Writable (f (dstva / PGSIZE)) ∨ (Shared U (f (dstva / PGSIZE)) ∧ L = [])) :
    Stored s t L L' U n f f' dstva src (-1) 0 := by
  refine ⟨by rw [himage, List.take_zero, Image.poke_nil], fun v hv => hsame v ?_,
    fun h0 => absurd h0 (by decide), fun h0 => absurd h0 (by decide),
    Or.inr ⟨rfl, hsrc, Or.inl rfl, fun hfits => ?_⟩⟩
  · rintro rfl
    exact hv (mem_pagesOf.mpr ⟨0, hsrc, rfl⟩)
  · obtain ⟨hw, hs⟩ := hfits.first hsrc
    rcases hno with hno | ⟨hsh, rfl⟩
    · exact hno hw
    · exact hs hsh rfl

theorem Stored.step {dstva m k : ℕ} {src : List UInt8} {r : ℤ} {L'' : List ℕ} {f'' : ℕ → Pte}
    (hm : m = min (PGSIZE - (dstva - pgrounddown dstva)) src.length) (hsrc : 0 < src.length)
    (himage : Vm.image t.mem f' n = (Vm.image s.mem f n).put (dstva / PGSIZE)
      (dstva - pgrounddown dstva) (src.take m))
    (hw : Writable (f (dstva / PGSIZE))) (hC : has (f' (dstva / PGSIZE)) PTE_COW = false)
    (hp : Paid L L' U f f' (dstva / PGSIZE) (some v))
    (h : Stored t t' L' L'' U n f' f'' (pgrounddown dstva + PGSIZE) (src.drop m) r k) :
    Stored s t' L L'' U n f f'' dstva src r (m + k) := by
  obtain ⟨hle, hlt⟩ := pgrounddown_le dstva
  have hoff : dstva - pgrounddown dstva = dstva % PGSIZE := by
    unfold pgrounddown PGSIZE
    omega
  have hL := hp.taken (by simp)
  have hdrop : (src.drop m).length = src.length - m := List.length_drop
  have hfits := Fits.step hsrc hw hp.same hL
  obtain ⟨hpages, hfirst⟩ := pagesOf_step dstva hsrc
  rw [← hm, ← List.length_drop] at hfits hpages hfirst
  have hlen : (src.take m).length = m := by
    rw [List.length_take]
    omega
  refine ⟨?_, fun v hv => ?_, fun h0 => ?_, fun h0 v hv => ?_, ?_⟩
  · rw [h.image, himage, hoff, Image.put_eq_poke (by omega), Image.poke_poke, ← List.take_add]
    rw [hlen]
    rcases Nat.lt_or_ge m src.length with hin | hout
    · right
      omega
    · left
      rw [List.drop_eq_nil_of_le hout, List.take_nil]
  · rw [hpages, mem_insert, not_or] at hv
    rw [h.same v hv.2, hp.same v hv.1]
  · rw [hpages, copies_insert hfirst, hL, h.spent h0,
      copies_congr (fun v hv => hp.same v (fun he => hfirst (he ▸ hv)))]
    omega
  · rw [hpages, mem_insert] at hv
    rcases hv with rfl | hv
    · rw [h.same _ hfirst]
      exact hC
    · exact h.settled h0 v hv
  · rcases h.result with ⟨hr, hk, hf⟩ | ⟨hr, hk, hch, hf⟩
    · exact Or.inl ⟨hr, by omega, hfits.mpr hf⟩
    · refine Or.inr ⟨hr, by omega, Or.inr ?_, fun hx => hf (hfits.mp hx)⟩
      rw [show dstva + (m + k) = pgrounddown dstva + PGSIZE + k by omega]
      rcases hch with rfl | hch
      · exact ⟨dstva / PGSIZE + 1, by unfold pgrounddown PGSIZE; omega⟩
      · exact hch

end fits

/-! ### The loop -/

section writing
variable [Layout] {s t t' : Mach} {L L' : List ℕ} {X U : ℕ → ℕ} {a tf n v : ℕ} {f f' : ℕ → Pte}
  {e : Pte} {cur : Option ℕ}

/-- The entry that `copyout` works with: it is not copy-on-write, and finding it left the image
alone. -/
structure Writing (s t : Mach) (L L' : List ℕ) (X U : ℕ → ℕ) (a tf n : ℕ) (f f' : ℕ → Pte) (v : ℕ)
    (r : Option ℕ) : Prop where
  user : User t L' X U a tf n f'
  touched : Touched s t X U n f f'
  image : image t.mem f' n = image s.mem f n
  found : ∀ pte, r = some pte → pteAt t.mem pte = f' v ∧ has (f' v) PTE_COW = false
  still : (∀ w < n, has (f w) PTE_COW = false) → f' = f ∧ Drawn s t L L'
  lost : r = none → 0 ∉ t.allocs → (has (f v) PTE_U && (has (f v) PTE_W || has (f v) PTE_COW)) = false

theorem copyoutPte_spec (h : User s L X U a tf n f) (hcur : Current cur a n f)
    (hva : v * PGSIZE < MAXVA) : wp (copyoutPte cur a (v * PGSIZE))
      (fun r t => ∃ L' f', Writing s t L L' X U a tf n f f' v r ∧ Paid L L' U f f' v r)
        (fun _ => False) s := by
  have hvn := vpn_lt hva
  simp only [copyoutPte, wp_bind, wp_walk_false hva, mul_div_pgsize]
  rw [wp_ite]
  refine ⟨fun hz => ?_, fun hs => ?_⟩
  · have hU : has (f v) PTE_U = false := by
      by_contra hU
      exact absurd hz (h.uvm.slot_ne_zero (h.uvm.space.lt_of_user (by simpa using hU)))
    rw [wp_pure]
    refine ⟨L, f, ⟨h, Touched.refl _ _ _ _ _, rfl, fun _ hr => absurd hr (by simp),
      fun _ => ⟨rfl, Drawn.refl _ _⟩, fun _ _ => by rw [hU]; rfl⟩, Paid.of_lost (Or.inl (fun hw => ?_))⟩
    rw [hw.1] at hU
    exact absurd hU (by simp)
  · simp only [wp_bind, wp_ldpte, h.uvm.tab.pteAt_slot hvn hs]
    cases hC : has (f v) PTE_COW with
    | false =>
        simp only [Bool.and_false, Bool.false_eq_true, if_false, wp_pure]
        refine ⟨L, f, ⟨h, Touched.refl _ _ _ _ _, rfl, fun pte hr => ?_, fun _ => ⟨rfl, Drawn.refl _ _⟩,
          fun hr => absurd hr (by simp)⟩, fun _ _ => rfl, fun hr => absurd hr (by simp), fun _ => ?_⟩
        · rw [← Option.some.inj hr, h.uvm.tab.pteAt_slot hvn hs]
          exact ⟨rfl, hC⟩
        · rw [if_neg (fun hsh => by rw [hsh.1] at hC; exact absurd hC (by simp)), Nat.add_zero]
    | true =>
        have hv := h.uvm.space.lt_of_cow hC
        have hsome : ¬ ∀ w < n, has (f w) PTE_COW = false := fun hno => by
          rw [hno v hv] at hC
          exact absurd hC (by simp)
        have hc : cur = some a := hcur.resolve_right hsome
        subst hc
        simp only [(h.uvm.space.user v hv).valid, Bool.and_self, if_true, wp_bind]
        refine wp_post (handleCowFault_exact h.uvm (v * PGSIZE)) ?_
        rw [mul_div_pgsize]
        rintro r t (⟨rfl, rfl, hno⟩ | ⟨rfl, -, hU, rfl, hm, hal, hu⟩ |
          ⟨rfl, -, -, e, L', hres, huvm, hL⟩)
        · have hU : has (f v) PTE_U = false := by
            by_contra hU
            exact hno ⟨by simpa using hU, hC⟩
          rw [if_pos (by decide), wp_pure]
          refine ⟨L, f, ⟨h, Touched.refl _ _ _ _ _, rfl, fun _ hr => absurd hr (by simp),
            fun hno => absurd hno hsome, fun _ _ =>
            by rw [hU]; rfl⟩, Paid.of_lost (Or.inl (fun hw => ?_))⟩
          rw [hw.1] at hU
          exact absurd hU (by simp)
        · rw [if_pos (by decide), wp_pure]
          exact ⟨[], f, ⟨⟨hu, h.excl⟩, Touched.of_keeps (.of_kalloc hm hal), by rw [hm],
            fun _ hr => absurd hr (by simp), fun hno => absurd hno hsome,
            fun _ h0 => absurd (by rw [hal]; exact List.mem_cons_self) h0⟩,
            Paid.of_lost (Or.inr ⟨⟨hC, hU⟩, rfl⟩)⟩
        · rw [if_neg (by decide), wp_map, wp_walk_false hva, mul_div_pgsize]
          have hu : User t L' X U a tf n (update f v e) := ⟨huvm, hres.excl h⟩
          refine ⟨L', update f v e, ⟨hu, hres.touched, hres.image_eq hv, fun pte hr => ?_,
            fun hno => absurd hno hsome, fun hr => absurd hr (by simp)⟩, fun w hw => update_of_ne hw _ _,
            fun hr => absurd hr (by simp), fun _ => ?_⟩
          · rw [← Option.some.inj hr, hu.uvm.tab.pteAt_slot hvn (hu.uvm.slot_ne_zero hv), update_self]
            refine ⟨rfl, ?_⟩
            by_contra hC'
            exact hres.entry.user.excl ⟨hres.entry.write, by simpa using hC'⟩
          · rw [hL]
            unfold Shared
            simp [hC]

/-- What a write to user memory leaves: unless `kalloc` fails, the image is `g`, the one that a
write to private pages gives; a table without copy-on-write pages keeps its map. -/
structure Written (s t : Mach) (L L' : List ℕ) (X U : ℕ → ℕ) (a tf n : ℕ) (f f' : ℕ → Pte)
    (g : Image) : Prop where
  user : User t L' X U a tf n f'
  touched : Touched s t X U n f f'
  still : (∀ w < n, has (f w) PTE_COW = false) → f' = f ∧ Drawn s t L L'
  image : 0 ∉ t.allocs → image t.mem f' n = g

theorem Written.refl (h : User s L X U a tf n f) : Written s s L L X U a tf n f f (Vm.image s.mem f n) :=
  ⟨h, Touched.refl _ _ _ _ _, fun _ => ⟨rfl, Drawn.refl _ _⟩, fun _ => rfl⟩

theorem copyoutFrom_spec {fuel : ℕ} {src : List UInt8} (dstva : ℕ) (h : User s L X U a tf n f)
    (hcur : Current cur a n f) (hfuel : src.length ≤ fuel) :
    wp (copyoutFrom cur a fuel dstva src) (fun r t => ∃ L' f' k,
      Written s t L L' X U a tf n f f' ((image s.mem f n).copyoutFrom fuel dstva src).2 ∧
      (0 ∉ t.allocs → r = ((image s.mem f n).copyoutFrom fuel dstva src).1) ∧
      Stored s t L L' U n f f' dstva src r k) (fun _ => False) s := by
  induction fuel generalizing s L f dstva src with
  | zero =>
      obtain rfl := List.length_eq_zero_iff.mp (Nat.le_zero.mp hfuel)
      simp only [copyoutFrom, Image.copyoutFrom, wp_pure]
      exact ⟨L, f, 0, Written.refl h, fun _ => trivial, Stored.nil _ _ _ _ _ _⟩
  | succ fuel ih =>
      cases src with
      | nil =>
          simp only [copyoutFrom, Image.copyoutFrom, wp_pure]
          exact ⟨L, f, 0, Written.refl h, fun _ => trivial, Stored.nil _ _ _ _ _ _⟩
      | cons b src =>
          obtain ⟨hle, hlt⟩ := pgrounddown_le dstva
          have hsrc : 0 < (b :: src).length := Nat.succ_pos _
          have hwr := image_writable h.uvm.space s.mem (pgrounddown dstva)
          simp only [copyoutFrom, Image.copyoutFrom]
          rw [hwr, show pgrounddown dstva / PGSIZE = dstva / PGSIZE from mul_div_pgsize _, wp_ite]
          refine ⟨fun hbig => ?_, fun hsmall => ?_⟩
          · -- beyond the address space
            have hU := h.uvm.not_user (hbig.trans (Nat.div_mul_le_self _ _))
            rw [wp_pure, hU]
            refine ⟨L, f, 0, Written.refl h, fun _ => rfl, Stored.stop rfl hsrc (fun _ _ => rfl)
              (Or.inl (fun hw => ?_))⟩
            rw [hw.1] at hU
            exact absurd hU (by simp)
          · rw [wp_bind]
            refine wp_post (copyoutPte_spec h hcur (Nat.not_le.mp hsmall)) ?_
            rintro (_ | pte) t ⟨L', f', hw, hp⟩
            · rw [wp_pure]
              refine ⟨L', f', 0, ⟨hw.user, hw.touched, hw.still, fun h0 => ?_⟩, fun h0 => ?_,
                Stored.stop hw.image hsrc hp.same (hp.lost rfl)⟩
              · rw [hw.lost rfl h0]
                exact hw.image
              · rw [hw.lost rfl h0]
                rfl
            · obtain ⟨hpte, hC⟩ := hw.found pte rfl
              have hsame := image_writable hw.user.uvm.space t.mem (pgrounddown dstva)
              rw [hw.image, hwr, show pgrounddown dstva / PGSIZE =
                dstva / PGSIZE from mul_div_pgsize _, hC, Bool.or_false] at hsame
              have hwrit : Writable (f (dstva / PGSIZE)) ↔
                  (has (f' (dstva / PGSIZE)) PTE_U && has (f' (dstva / PGSIZE)) PTE_W) = true := by
                rw [← hsame, Bool.and_eq_true, Bool.or_eq_true]
                rfl
              simp only [wp_bind, wp_ldpte, hpte]
              rw [hsame, wp_ite]
              refine ⟨fun hbad => ?_, fun hgood => ?_⟩
              · have hno : (has (f' (dstva / PGSIZE)) PTE_U && has (f' (dstva / PGSIZE)) PTE_W) =
                    false := by
                  cases hU : has (f' (dstva / PGSIZE)) PTE_U with
                  | false => rfl
                  | true =>
                      have hvalid := (hw.user.uvm.space.user _ (hw.user.uvm.space.lt_of_user hU)).valid
                      simpa [hvalid, hU] using hbad
                rw [wp_pure, hno]
                refine ⟨L', f', 0, ⟨hw.user, hw.touched, hw.still, fun _ => hw.image⟩, fun _ => rfl,
                  Stored.stop hw.image hsrc hp.same (Or.inl (fun hx => ?_))⟩
                rw [hwrit.mp hx] at hno
                exact absurd hno (by simp)
              · simp only [Bool.or_eq_true, Bool.not_eq_true', not_or, Bool.not_eq_false] at hgood
                obtain ⟨⟨-, hU⟩, hW⟩ := hgood
                have hv := hw.user.uvm.space.lt_of_user hU
                rw [if_neg (hw.user.uvm.user_ne_zero hU), wp_bind, wp_memput]
                obtain ⟨g1, g2, g4, g3⟩ := hw.user.put hv hW (dstva - pgrounddown dstva) ((b :: src).take
                  (min (PGSIZE - (dstva - pgrounddown dstva)) (b :: src).length)) (by
                    rw [List.length_take]
                    omega)
                refine wp_post (ih _ g1 (hcur.touched hw.touched) (by rw [List.length_drop]; omega)) ?_
                rw [g3, hw.image, hU, hW]
                rintro r t' ⟨L'', f'', k, k1, k2, k3⟩
                rw [hw.image] at g3
                refine ⟨L'', f'', _, ⟨k1.user,
                  (hw.touched.trans (Touched.of_frame g2)).trans k1.touched, fun hno => ?_,
                  k1.image⟩, k2, k3.step rfl hsrc g3 (hwrit.mpr (by rw [hU, hW]; rfl)) hC hp⟩
                obtain ⟨rfl, hd⟩ := hw.still hno
                obtain ⟨rfl, hd'⟩ := k1.still hno
                exact ⟨rfl, (hd.trans g4).trans hd'⟩

/-- `copyout` to the current process, or to a table without copy-on-write pages. -/
theorem copyout_spec {dstva : ℕ} {src : List UInt8} (h : User s L X U a tf n f)
    (hcur : Current cur a n f) : wp (copyout cur a dstva src) (fun r t => ∃ L' f',
      Written s t L L' X U a tf n f f' ((image s.mem f n).copyout dstva src).2 ∧
      (0 ∉ t.allocs → r = ((image s.mem f n).copyout dstva src).1)) (fun _ => False) s := by
  refine wp_post (copyoutFrom_spec dstva h hcur le_rfl) ?_
  rintro r t ⟨L', f', k, h1, h2, -⟩
  exact ⟨L', f', h1, h2⟩

theorem image_writable_iff (hs : Space f tf n) (m : Bytes) :
    (image m f n).writable (v * PGSIZE) = true ↔ Writable (f v) := by
  rw [image_writable hs, mul_div_pgsize, Bool.and_eq_true, Bool.or_eq_true]
  rfl

/-- `copyout` to a table without copy-on-write pages takes no page: it does what a write to private
pages does. -/
theorem copyout_nocow {dstva : ℕ} {src : List UInt8} (h : User s L X U a tf n f)
    (hno : ∀ w < n, has (f w) PTE_COW = false) :
      wp (copyout cur a dstva src) (fun r t => ∃ L', Uvm t L' X U a tf n f ∧ Drawn s t L L' ∧
        Keeps s t (X + U) ∧ ((r = -1 ∧ ((image s.mem f n).copyout dstva src).1 = -1) ∨
          (r = 0 ∧ (image s.mem f n).copyout dstva src = (0, image t.mem f n)))) (fun _ => False) s := by
  refine wp_post (copyoutFrom_spec dstva h (Or.inr hno) le_rfl) ?_
  rintro r t ⟨L', f', k, hw, -, hst⟩
  obtain ⟨rfl, hd⟩ := hw.still hno
  refine ⟨L', hw.user.uvm, hd, hw.touched.keeps, ?_⟩
  have hnone : copies U f' (pagesOf dstva src.length) = 0 := by
    refine card_eq_zero.mpr (filter_eq_empty_iff.mpr (fun v _ hs => ?_))
    have hC := hno v (h.uvm.space.lt_of_cow hs.1)
    rw [hs.1] at hC
    exact absurd hC (by simp)
  have himage := hst.image
  rcases hst.result with ⟨rfl, rfl, hfits⟩ | ⟨rfl, -, -, hfits⟩
  · right
    rcases Image.copyoutFrom_eq (image s.mem f' n) dstva (le_refl src.length) with
      ⟨-, hr⟩ | ⟨⟨v, hv, hbad⟩, -⟩
    · rw [List.take_length] at himage
      exact ⟨rfl, by rw [himage]; exact hr⟩
    · rw [(image_writable_iff h.uvm.space s.mem).mpr (hfits.1 v hv)] at hbad
      exact absurd hbad (by simp)
  · left
    rcases Image.copyoutFrom_eq (image s.mem f' n) dstva (le_refl src.length) with ⟨hgood, -⟩ | ⟨-, hr⟩
    · refine absurd ⟨fun v hv => (image_writable_iff h.uvm.space s.mem).mp (hgood v hv), ?_⟩ hfits
      rw [hnone]
      exact Nat.zero_le _
    · exact ⟨rfl, hr⟩

end writing

end Xv6Cow.Vm
