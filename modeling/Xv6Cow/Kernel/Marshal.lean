import Xv6Cow.Kernel.Reference

/-! # The arguments of `exec` on the new stack

`exec` pushes the argument strings one below the other and `ustack`, the array of their addresses,
below them; every push is rounded down to a multiple of 16, and one that ends below the stack is an
error.  On a stack whose pages may be written the work is a matter of sizes: what is pushed lies at
`places`, it fits exactly if the rounded sizes add up to no more than the stack (`ArgsFit`), and the
areas lie one below the other (`Stacked`), so that each of them is read back as it was written. -/

namespace Xv6Cow.Kernel

open Vm

/-! ### Areas one below the other -/

/-- Areas of memory, each with its address and its bytes, one below the other from `hi` down to
`lo`. -/
def Stacked (lo : ℕ) : (hi : ℕ) → List (ℕ × List UInt8) → Prop
  | _, [] => True
  | hi, (va, bs) :: areas => lo ≤ va ∧ va + bs.length ≤ hi ∧ Stacked lo va areas

/-- Write the areas in order. -/
def pokeAll (g : Image) (areas : List (ℕ × List UInt8)) : Image :=
  areas.foldl (fun g area => g.poke area.1 area.2) g

section areas
variable {g : Image} {lo hi va vb n : ℕ} {bs cs : List UInt8} {areas : List (ℕ × List UInt8)}

theorem Stacked.within (h : Stacked lo hi areas) : ∀ area ∈ areas, lo ≤ area.1 ∧
    area.1 + area.2.length ≤ hi := by
  induction areas generalizing hi with
  | nil => exact fun area hm => absurd hm List.not_mem_nil
  | cons first areas ih =>
      rintro area hm
      rcases List.mem_cons.mp hm with rfl | hm
      · exact ⟨h.1, h.2.1⟩
      · obtain ⟨h1, h2⟩ := ih h.2.2 area hm
        exact ⟨h1, h2.trans (le_trans (Nat.le_add_right _ _) h.2.1)⟩

/-- No two areas overlap: each ends before the ones that were written earlier begin. -/
theorem Stacked.disjoint (h : Stacked lo hi areas) :
    areas.Pairwise (fun x y => y.1 + y.2.length ≤ x.1) := by
  induction areas generalizing hi with
  | nil => exact List.Pairwise.nil
  | cons first areas ih => exact List.Pairwise.cons (fun area hm => (h.2.2.within area hm).2) (ih h.2.2)

theorem Holds.poke (h : g.Holds va bs) (hd : vb + cs.length ≤ va ∨ va + bs.length ≤ vb) :
    (g.poke vb cs).Holds va bs := by
  intro i hi
  obtain ⟨pg, hpg, hu, hr, hb⟩ := h i hi
  refine ⟨_, congrArg (Option.map _) hpg, hu, hr, ?_⟩
  have hdm := Nat.div_add_mod' (va + i) PGSIZE
  dsimp only
  split_ifs with hx
  · rw [List.getD_eq_default _ _ (by omega), hb]
  · exact hb

theorem poke_page {pg : UPage} {v : ℕ} (h : g v = some pg) (va : ℕ) (bs : List UInt8) :
    ∃ pg', (g.poke va bs) v = some pg' ∧ pg'.perm = pg.perm :=
  ⟨_, congrArg (Option.map _) h, rfl⟩

theorem poke_elsewhere {v : ℕ} (h : ∀ i < bs.length, (va + i) / PGSIZE ≠ v) :
    (g.poke va bs) v = g v := by
  unfold Image.poke
  cases hv : g v with
  | none => rfl
  | some pg =>
      refine congrArg some (congrArg (UPage.mk pg.perm) (funext (fun off => ?_)))
      split_ifs with hx
      · refine List.getD_eq_default _ _ ?_
        by_contra hlt
        refine h (v * PGSIZE + off - va) (by omega) ?_
        rw [Nat.add_sub_cancel' hx.2]
        have := hx.1
        unfold PGSIZE at *
        omega
      · rfl

/-- A user page that may be read and written. -/
def Plain (pg : UPage) : Prop := pg.perm.u = true ∧ pg.perm.w = true ∧ pg.perm.r = true

/-- Every address from `lo` up to `hi` is in a user page that may be read and written. -/
def Open (g : Image) (lo hi : ℕ) : Prop := ∀ x, lo ≤ x → x < hi → ∃ pg, g (x / PGSIZE) = some pg ∧
    Plain pg

theorem Open.poke (h : Open g lo hi) (va : ℕ) (bs : List UInt8) : Open (g.poke va bs) lo hi := by
  intro x h1 h2
  obtain ⟨pg, hpg, hplain⟩ := h x h1 h2
  obtain ⟨pg', hpg', hperm⟩ := poke_page hpg va bs
  exact ⟨pg', hpg', by rwa [Plain, hperm]⟩

theorem Open.holds (h : Open g lo hi) (h1 : lo ≤ va) (h2 : va + bs.length ≤ hi) :
    (g.poke va bs).Holds va bs := by
  intro i hi
  obtain ⟨pg, hpg, hu, -, hr⟩ := h (va + i) (by omega) (by omega)
  refine ⟨_, congrArg (Option.map _) hpg, hu, hr, ?_⟩
  have hdm := Nat.div_add_mod' (va + i) PGSIZE
  have hlt : (va + i) % PGSIZE < PGSIZE := Nat.mod_lt _ (by decide)
  dsimp only
  rw [if_pos ⟨hlt, by omega⟩, hdm, Nat.add_sub_cancel_left, List.getD_eq_getElem _ _ hi]

theorem Open.copyout (h : Open g lo hi) (h1 : lo ≤ va) (h2 : va + bs.length ≤ hi) :
    g.copyout va bs = (0, g.poke va bs) := by
  rcases Image.copyoutFrom_eq g va (le_refl bs.length) with ⟨-, hr⟩ | ⟨⟨v, hv, hbad⟩, -⟩
  · exact hr
  · obtain ⟨k, hk, rfl⟩ := mem_pagesOf.mp hv
    obtain ⟨pg, hpg, hu, hw, -⟩ := h (va + k) (by omega) (by omega)
    rw [Image.writable, mul_div_pgsize, hpg] at hbad
    simp only [hu, hw, Bool.and_self] at hbad
    exact absurd hbad (by simp)

theorem Open.pokeAll (h : Open g lo hi) (areas : List (ℕ × List UInt8)) :
    Open (pokeAll g areas) lo hi := by
  induction areas generalizing g with
  | nil => exact h
  | cons area areas ih => exact ih (h.poke area.1 area.2)

/-- What is above the areas is still read after they are written. -/
theorem Holds.pokeAll (h : g.Holds va bs) (hbelow : ∀ area ∈ areas, area.1 + area.2.length ≤ va) :
    (pokeAll g areas).Holds va bs := by
  induction areas generalizing g with
  | nil => exact h
  | cons area areas ih =>
      exact ih (Holds.poke h (Or.inl (hbelow area List.mem_cons_self)))
        (fun x hx => hbelow x (List.mem_cons_of_mem _ hx))

theorem Stacked.holds (h : Stacked lo hi areas) (ho : Open g lo hi) :
    ∀ area ∈ areas, (pokeAll g areas).Holds area.1 area.2 := by
  induction areas generalizing g hi with
  | nil => exact fun area hm => absurd hm List.not_mem_nil
  | cons first areas ih =>
      obtain ⟨h1, h2, h3⟩ := h
      rintro area hm
      change (pokeAll (g.poke first.1 first.2) areas).Holds area.1 area.2
      rcases List.mem_cons.mp hm with rfl | hm
      · exact Holds.pokeAll (ho.holds h1 h2) (fun x hx => (h3.within x hx).2)
      · refine ih h3 (fun x hx hx' => ?_) area hm
        exact ho.poke _ _ x hx (lt_of_lt_of_le hx' (le_trans (Nat.le_add_right _ _) h2))

theorem Stacked.below {v : ℕ} (h : Stacked lo hi areas) (hv : v * PGSIZE + PGSIZE ≤ lo) :
    (pokeAll g areas) v = g v := by
  induction areas generalizing g hi with
  | nil => rfl
  | cons first areas ih =>
      obtain ⟨h1, h2, h3⟩ := h
      refine (ih h3).trans (poke_elsewhere (fun i hi he => ?_))
      rw [← he] at hv
      unfold PGSIZE at *
      omega

end areas

/-! ### The pushes -/

/-- `n` rounded up to a multiple of 16. -/
def up16 (n : ℕ) : ℕ := (n + 15) / 16 * 16

/-- Where pushes of `ns` bytes end. -/
def places : (sp : ℕ) → (ns : List ℕ) → List ℕ
  | _, [] => []
  | sp, n :: ns => push sp n :: places (push sp n) ns

/-- The pushes that are made, each with the stack pointer before it and its number of bytes: there
is none after one that ends below the stack. -/
def pushes (stackbase : ℕ) : (sp : ℕ) → (ns : List ℕ) → List (ℕ × ℕ)
  | _, [] => []
  | sp, n :: ns => (sp, n) :: if push sp n < stackbase then [] else pushes stackbase (push sp n) ns

/-- The bytes of the strings with their terminators. -/
def strings (args : List (List UInt8)) : List ℕ := args.map (fun str => str.length + 1)

/-- The bytes of all that `exec` pushes: the strings, and `ustack` with the 0 at its end. -/
def sizes (args : List (List UInt8)) : List ℕ := strings args ++ [(args.length + 1) * 8]

/-- Pushes of `ns` bytes take this much. -/
def total (ns : List ℕ) : ℕ := (ns.map up16).sum

/-- The aligned strings and the aligned array fit in the stack. -/
def ArgsFit (args : List (List UInt8)) : Prop := total (sizes args) ≤ USERSTACK * PGSIZE

instance (args : List (List UInt8)) : Decidable (ArgsFit args) := inferInstanceAs (Decidable (_ ≤ _))

/-- The arguments that `sys_exec` passes: there is a place for the terminator, and each string with
its terminator fits in a page. -/
structure Passed (args : List (List UInt8)) : Prop where
  few : args.length < MAXARG
  short : ∀ str ∈ args, str.length + 1 ≤ PGSIZE ∧ 0 ∉ str

section pushes
variable {sp n lo hi : ℕ} {ns : List ℕ} {args : List (List UInt8)} {ustack : List ℕ} {g : Image}

theorem le_up16 (n : ℕ) : n ≤ up16 n := by
  unfold up16
  omega

@[simp] theorem total_nil : total [] = 0 := rfl

@[simp] theorem total_cons : total (n :: ns) = up16 n + total ns := List.sum_cons

theorem total_mod (ns : List ℕ) : total ns % 16 = 0 := by
  induction ns with
  | nil => rfl
  | cons n ns ih =>
      rw [total_cons]
      unfold up16
      omega

theorem total_sizes (args : List (List UInt8)) : total (sizes args) = total (strings args) +
    up16 ((args.length + 1) * 8) := by
  simp [sizes, total]

theorem push_eq (hsp : sp % 16 = 0) (hn : n ≤ sp) (hlt : sp < 2 ^ 64) :
    push sp n = sp - up16 n ∧ up16 n ≤ sp ∧ push sp n % 16 = 0 := by
  have hsub : sub64 sp n = sp - n := by
    unfold sub64
    omega
  unfold push up16
  rw [hsub]
  omega

/-- **No push goes below 0**, when the stack has a page below it and no push is of more than a
page. -/
theorem pushes_le (hlo : PGSIZE ≤ lo) (h : lo ≤ sp) (hns : ∀ n ∈ ns, n ≤ PGSIZE) :
    ∀ x ∈ pushes lo sp ns, x.2 ≤ x.1 := by
  induction ns generalizing sp with
  | nil => exact fun x hx => absurd hx List.not_mem_nil
  | cons n ns ih =>
      rintro x hx
      rcases List.mem_cons.mp hx with rfl | hx
      · exact (hns n List.mem_cons_self).trans (hlo.trans h)
      · split_ifs at hx with hlow
        · exact absurd hx List.not_mem_nil
        · exact ih (Nat.not_lt.mp hlow) (fun m hm => hns m (List.mem_cons_of_mem _ hm)) x hx

theorem Passed.sizes_le (h : Passed args) : ∀ n ∈ sizes args, n ≤ PGSIZE := by
  intro n hn
  rw [sizes, List.mem_append, List.mem_singleton] at hn
  rcases hn with hn | rfl
  · obtain ⟨str, hstr, rfl⟩ := List.mem_map.mp hn
    exact (h.short str hstr).1
  · have := h.few
    unfold MAXARG at this
    unfold PGSIZE
    omega

/-- The areas of the strings. -/
def strAreas (sp : ℕ) (args : List (List UInt8)) : List (ℕ × List UInt8) :=
  (places sp (strings args)).zip (args.map (fun str => str ++ [0]))

theorem places_length (sp : ℕ) (ns : List ℕ) : (places sp ns).length = ns.length := by
  induction ns generalizing sp with
  | nil => rfl
  | cons n ns ih => rw [places, List.length_cons, List.length_cons, ih]

/-- What is known of the stack while the strings are pushed. -/
structure Pushing (lo hi sp : ℕ) (g : Image) : Prop where
  page : PGSIZE ≤ lo
  base : lo ≤ sp
  top : sp ≤ hi
  small : hi < 2 ^ 64
  aligned : sp % 16 = 0
  pages : Open g lo hi

theorem Pushing.push (h : Pushing lo hi sp g) (bs : List UInt8) (hn : bs.length ≤ PGSIZE) :
    Kernel.push sp bs.length = sp - up16 bs.length ∧ up16 bs.length ≤ sp ∧
      (¬ Kernel.push sp bs.length < lo → g.copyout (Kernel.push sp bs.length) bs =
        (0, g.poke (Kernel.push sp bs.length) bs) ∧ Kernel.push sp bs.length + bs.length ≤ sp ∧
        Pushing lo hi (Kernel.push sp bs.length) (g.poke (Kernel.push sp bs.length) bs)) := by
  obtain ⟨heq, hle, hal⟩ := push_eq h.aligned (hn.trans (h.page.trans h.base))
    (lt_of_le_of_lt h.top h.small)
  have hup := le_up16 bs.length
  have htop := h.top
  exact ⟨heq, hle, fun hlow => ⟨h.pages.copyout (by omega) (by omega), by omega,
    ⟨h.page, by omega, by omega, h.small, hal, h.pages.poke _ _⟩⟩⟩

/-- The loop over the strings: it fails exactly if they do not fit. -/
theorem rExecArgs_eq (h : Pushing lo hi sp g) (hargs : ∀ str ∈ args, str.length + 1 ≤ PGSIZE)
    (hlen : ustack.length + args.length ≤ MAXARG) :
    rExecArgs lo args sp ustack g = if total (strings args) ≤ sp - lo then
      some (sp - total (strings args), ustack ++ places sp (strings args),
        pokeAll g (strAreas sp args)) else none := by
  induction args generalizing sp ustack g with
  | nil =>
      rw [rExecArgs, if_pos (show total (strings []) ≤ sp - lo from Nat.zero_le _)]
      simp [strings, places, strAreas, pokeAll]
  | cons str args ih =>
      have hbs : (str ++ [0]).length = str.length + 1 := by simp
      rw [List.length_cons] at hlen
      have hmore : ¬ MAXARG ≤ ustack.length := by omega
      have hlen' : (ustack ++ [Kernel.push sp (str.length + 1)]).length + args.length ≤ MAXARG := by
        rw [List.length_append, List.length_singleton]
        omega
      obtain ⟨heq, hle, hgo⟩ := h.push (str ++ [0]) (by rw [hbs]; exact hargs str List.mem_cons_self)
      rw [hbs] at heq hle hgo
      have hsum : total (strings (str :: args)) = up16 (str.length + 1) + total (strings args) :=
        total_cons
      rw [rExecArgs, if_neg hmore]
      simp only
      by_cases hlow : Kernel.push sp (str.length + 1) < lo
      · rw [if_pos hlow, if_neg]
        have := h.base
        omega
      · obtain ⟨hcopy, -, hnext⟩ := hgo hlow
        rw [if_neg hlow, hcopy]
        simp only [Int.lt_irrefl, if_false]
        rw [ih hnext (fun x hx => hargs x (List.mem_cons_of_mem _ hx)) hlen', hsum]
        have hiff : total (strings args) ≤ Kernel.push sp (str.length + 1) - lo ↔
            up16 (str.length + 1) + total (strings args) ≤ sp - lo := by
          omega
        simp only [hiff]
        refine if_congr Iff.rfl ?_ rfl
        rw [show sp - (up16 (str.length + 1) + total (strings args)) =
          Kernel.push sp (str.length + 1) - total (strings args) by omega, List.append_assoc]
        rfl

/-- The strings lie one below the other, above what lies below them. -/
theorem stacked_strAreas {tail : List (ℕ × List UInt8)} (h : Pushing lo hi sp g)
    (hargs : ∀ str ∈ args, str.length + 1 ≤ PGSIZE) (hfit : total (strings args) ≤ sp - lo)
    (htail : Stacked lo (sp - total (strings args)) tail) :
    Stacked lo sp (strAreas sp args ++ tail) := by
  induction args generalizing sp g with
  | nil => exact htail
  | cons str args ih =>
      have hbs : (str ++ [0]).length = str.length + 1 := by simp
      obtain ⟨heq, hle, hgo⟩ := h.push (str ++ [0]) (by rw [hbs]; exact hargs str List.mem_cons_self)
      rw [hbs] at heq hle hgo
      have hsum : total (strings (str :: args)) = up16 (str.length + 1) + total (strings args) :=
        total_cons
      have hbase := h.base
      obtain ⟨-, hend, hnext⟩ := hgo (by omega)
      have hfit' : total (strings args) ≤ Kernel.push sp (str.length + 1) - lo := by omega
      refine ⟨hnext.base, by rw [hbs]; exact hend,
        ih hnext (fun x hx => hargs x (List.mem_cons_of_mem _ hx)) hfit' ?_⟩
      rwa [show Kernel.push sp (str.length + 1) - total (strings args) =
        sp - total (strings (str :: args)) by omega]

end pushes

/-! ### The stack of a new image -/

/-- The arguments on the stack: the stack pointer, `argc` and the image. -/
def rStack (sz : ℕ) (args : List (List UInt8)) (g : Image) : Option (ℕ × ℕ × Image) :=
  let stackbase := sz - USERSTACK * PGSIZE
  match rExecArgs stackbase args sz [] g with
  | none => none
  | some (sp, ustack, g) =>
      let sp := push sp ((ustack.length + 1) * 8)
      if sp < stackbase then none
      else
        let (r, g) := g.copyout sp (wordBytes (ustack ++ [0]))
        if r < 0 then none else some (sp, ustack.length, g)

theorem rExecStack_eq (sz : ℕ) (args : List (List UInt8)) (g : Image) :
    rExecStack sz args g = (rStack sz args g).map Prod.snd := by
  simp only [rExecStack, rStack]
  cases rExecArgs (sz - USERSTACK * PGSIZE) args sz [] g with
  | none => rfl
  | some x =>
      simp only
      split_ifs <;> rfl

/-- The stack of a new image of `sz` bytes: its pages may be read and written, and there is a page
below it. -/
structure StackReady (sz : ℕ) (g : Image) : Prop where
  aligned : PGSIZE ∣ sz
  room : (USERSTACK + 1) * PGSIZE ≤ sz
  small : sz < 2 ^ 64
  pages : Open g (sz - USERSTACK * PGSIZE) sz

/-- The stack pointer of the new image. -/
def stackPtr (sz : ℕ) (args : List (List UInt8)) : ℕ := sz - total (sizes args)

/-- `ustack` of the new image, with the 0 at its end. -/
def ustackOf (sz : ℕ) (args : List (List UInt8)) : List ℕ := places sz (strings args) ++ [0]

/-- All areas that `exec` writes on the stack. -/
def areasOf (sz : ℕ) (args : List (List UInt8)) : List (ℕ × List UInt8) :=
  strAreas sz args ++ [(stackPtr sz args, wordBytes (ustackOf sz args))]

section stack
variable {sz : ℕ} {g : Image} {args : List (List UInt8)}

theorem wordBytes_length (ws : List ℕ) : (wordBytes ws).length = ws.length * 8 := by
  induction ws with
  | nil => rfl
  | cons w ws ih =>
      have hcons : wordBytes (w :: ws) = (List.range 8).map (fun k => UInt8.ofNat (w / 256 ^ k)) ++
        wordBytes ws := rfl
      rw [hcons, List.length_append, ih, List.length_map, List.length_range, List.length_cons]
      omega

theorem ustackOf_length (sz : ℕ) (args : List (List UInt8)) : (ustackOf sz args).length =
    args.length + 1 := by
  rw [ustackOf, List.length_append, places_length, strings, List.length_map, List.length_singleton]

theorem StackReady.pushing (h : StackReady sz g) : Pushing (sz - USERSTACK * PGSIZE) sz sz g := by
  have hroom := h.room
  have hal := h.aligned
  refine ⟨?_, Nat.sub_le _ _, le_rfl, h.small, ?_, h.pages⟩ <;>
    · unfold USERSTACK PGSIZE at *
      omega

/-- The arguments on the stack: `exec` fails exactly if they do not fit. -/
theorem rStack_eq (h : StackReady sz g) (hargs : Passed args) : rStack sz args g =
    if ArgsFit args then some (stackPtr sz args, args.length, pokeAll g (areasOf sz args))
      else none := by
  have hroom := h.room
  have hpush := h.pushing
  have hshort : ∀ str ∈ args, str.length + 1 ≤ PGSIZE := fun str hs => (hargs.short str hs).1
  have hargc := hargs.few
  have hsum := total_sizes args
  have hstk : sz - (sz - USERSTACK * PGSIZE) = USERSTACK * PGSIZE := by
    unfold USERSTACK PGSIZE at *
    omega
  rw [rStack, rExecArgs_eq hpush hshort (by rw [List.length_nil]; omega), hstk]
  by_cases hstr : total (strings args) ≤ USERSTACK * PGSIZE
  · have hmod := total_mod (strings args)
    have hal := hpush.aligned
    have hst : Pushing (sz - USERSTACK * PGSIZE) sz (sz - total (strings args))
        (pokeAll g (strAreas sz args)) :=
      ⟨hpush.page, by omega, Nat.sub_le _ _, h.small, by omega, h.pages.pokeAll _⟩
    have hlen : (wordBytes (ustackOf sz args)).length = (args.length + 1) * 8 := by
      rw [wordBytes_length, ustackOf_length]
    obtain ⟨heq, hle, hgo⟩ := hst.push (wordBytes (ustackOf sz args)) (by
      rw [hlen]
      unfold MAXARG at hargc
      unfold PGSIZE
      omega)
    rw [hlen] at heq hle hgo
    have hptr : push (sz - total (strings args)) ((args.length + 1) * 8) = stackPtr sz args := by
      rw [heq, stackPtr, hsum, Nat.sub_sub]
    rw [hptr] at heq hgo
    have hcount : (places sz (strings args)).length = args.length := by
      rw [places_length, strings, List.length_map]
    simp only [if_pos hstr, List.nil_append, hcount, hptr]
    by_cases hlow : stackPtr sz args < sz - USERSTACK * PGSIZE
    · have hno : ¬ ArgsFit args := by
        unfold ArgsFit
        omega
      rw [if_pos hlow, if_neg hno]
    · have hyes : ArgsFit args := by
        unfold ArgsFit
        omega
      obtain ⟨hcopy, -, -⟩ := hgo hlow
      rw [if_neg hlow, if_pos hyes, ← ustackOf, hcopy]
      simp [areasOf, pokeAll]
  · have hno : ¬ ArgsFit args := by
      unfold ArgsFit
      omega
    simp [if_neg hstr, if_neg hno]

/-- The areas lie in the stack, one below the other. -/
theorem stacked_areasOf (h : StackReady sz g) (hargs : Passed args) (hfit : ArgsFit args) :
    Stacked (sz - USERSTACK * PGSIZE) sz (areasOf sz args) := by
  have hroom := h.room
  have hsum := total_sizes args
  have hup := le_up16 ((args.length + 1) * 8)
  have hstk : sz - (sz - USERSTACK * PGSIZE) = USERSTACK * PGSIZE := by
    unfold USERSTACK PGSIZE at *
    omega
  unfold ArgsFit at hfit
  refine stacked_strAreas h.pushing (fun str hs => (hargs.short str hs).1) (by omega) ⟨?_, ?_, trivial⟩
  · unfold stackPtr
    omega
  · rw [wordBytes_length, ustackOf_length]
    unfold stackPtr
    omega

theorem push_lt (sp n : ℕ) : push sp n < 256 ^ 8 :=
  lt_of_le_of_lt (Nat.sub_le _ _) (Nat.mod_lt _ (by decide))

theorem rStack_lt {sz sp : ℕ} {args : List (List UInt8)} {g : Image} {x : ℕ × Image}
    (h : rStack sz args g = some (sp, x)) : sp < 256 ^ 8 := by
  simp only [rStack] at h
  cases ha : rExecArgs (sz - USERSTACK * PGSIZE) args sz [] g with
  | none => simp only [ha, reduceCtorEq] at h
  | some y =>
      simp only [ha] at h
      split_ifs at h with h1 h2
      obtain ⟨rfl, -⟩ := Prod.mk.inj (Option.some.inj h)
      exact push_lt _ _

/-! ### What the new program reads -/

/-- User code reads the `uint64` `w` at `va`. -/
def HoldsWord (g : Image) (va w : ℕ) : Prop := ∃ bs, bs.length = 8 ∧ g.Holds va bs ∧ field bs 0 8 = w

/-- The areas of the arguments when the strings are at `ptrs` and the array at `sp`. -/
def argAreas (sp : ℕ) (ptrs : List ℕ) (args : List (List UInt8)) : List (ℕ × List UInt8) :=
  ptrs.zip (args.map (fun str => str ++ [0])) ++ [(sp, wordBytes (ptrs ++ [0]))]

/-- The arguments in an image of `sz` bytes: `sp` is the stack pointer and `ptrs` are the addresses
of the strings. -/
structure Marshalled (g : Image) (sz sp : ℕ) (args : List (List UInt8)) (ptrs : List ℕ) : Prop where
  aligned : sp % 16 = 0
  count : ptrs.length = args.length
  words : ∀ k (hk : k < (ptrs ++ [0]).length), HoldsWord g (sp + k * 8) (ptrs ++ [0])[k]
  read : ∀ area ∈ argAreas sp ptrs args, g.Holds area.1 area.2
  apart : (argAreas sp ptrs args).Pairwise (fun x y => y.1 + y.2.length ≤ x.1)
  inside : ∀ area ∈ argAreas sp ptrs args, sz - USERSTACK * PGSIZE ≤ area.1 ∧ area.1 + area.2.length ≤ sz

theorem field_wordBytes {w : ℕ} (h : w < 256 ^ 8) : field (wordBytes [w]) 0 8 = w := by
  refine (Bytes.le_congr (fun x _ hx => ?_)).trans (Bytes.le_setLe (m := fun _ => 0) (a := 0) h)
  rw [Bytes.setLe_of_mem (Nat.zero_le _) hx]
  simp only [wordBytes, List.flatMap_cons, List.flatMap_nil, List.append_nil]
  rw [List.getD_eq_getElem _ _ (by simpa using hx)]
  simp

theorem Holds.slice {va i n : ℕ} {bs : List UInt8} (h : g.Holds va bs) :
    g.Holds (va + i) ((bs.drop i).take n) := by
  intro j hj
  rw [List.length_take, List.length_drop] at hj
  obtain ⟨pg, h1, h2, h3, h4⟩ := h (i + j) (by omega)
  rw [← Nat.add_assoc] at h1 h4
  exact ⟨pg, h1, h2, h3, by rw [h4, List.getElem_take, List.getElem_drop]⟩

theorem wordBytes_slice {ws : List ℕ} {k : ℕ} (hk : k < ws.length) :
    ((wordBytes ws).drop (k * 8)).take 8 = wordBytes [ws[k]] := by
  induction ws generalizing k with
  | nil => exact absurd hk (Nat.not_lt_zero k)
  | cons w ws ih =>
      have hcons : wordBytes (w :: ws) = wordBytes [w] ++ wordBytes ws := by simp [wordBytes]
      have hlen : (wordBytes [w]).length = 8 := wordBytes_length [w]
      cases k with
      | zero => rw [hcons, Nat.zero_mul, List.drop_zero, List.take_left' hlen, List.getElem_cons_zero]
      | succ k =>
          rw [hcons, show (k + 1) * 8 = 8 + k * 8 by omega, ← List.drop_drop, List.drop_left' hlen,
            List.getElem_cons_succ]
          exact ih (by simpa using hk)

theorem holdsWord {sp k : ℕ} {ws : List ℕ} (h : g.Holds sp (wordBytes ws)) (hk : k < ws.length)
    (hw : ws[k] < 256 ^ 8) : HoldsWord g (sp + k * 8) ws[k] := by
  refine ⟨wordBytes [ws[k]], wordBytes_length _, ?_, field_wordBytes hw⟩
  rw [← wordBytes_slice hk]
  exact Holds.slice h

/-- **The arguments are read back**, from areas of the stack that do not overlap. -/
theorem marshalled (h : StackReady sz g) (hargs : Passed args) (hfit : ArgsFit args) :
    Marshalled (pokeAll g (areasOf sz args)) sz (stackPtr sz args) args (places sz (strings args)) := by
  have hst := stacked_areasOf h hargs hfit
  have hread := hst.holds h.pages
  have hroom := h.room
  have hmod := total_mod (sizes args)
  have hal := h.pushing.aligned
  have harray : (pokeAll g (areasOf sz args)).Holds (stackPtr sz args)
      (wordBytes (places sz (strings args) ++ [0])) :=
    hread _ (List.mem_append_right _ (List.mem_singleton_self _))
  have hcount : (places sz (strings args)).length = args.length := by
    rw [places_length, strings, List.length_map]
  refine ⟨?_, hcount, fun k hk => holdsWord harray hk ?_, hread, hst.disjoint, hst.within⟩
  · unfold ArgsFit USERSTACK PGSIZE at hfit
    unfold USERSTACK PGSIZE at hroom
    unfold stackPtr
    omega
  · -- the strings begin below `sz`
    rcases Nat.lt_or_ge k args.length with hlt | hge
    · rw [List.getElem_append_left (by omega)]
      have hmem : ((places sz (strings args))[k], args[k] ++ [0]) ∈ areasOf sz args := by
        refine List.mem_append_left _ (List.mem_iff_getElem.mpr ⟨k, ?_, ?_⟩)
        · rw [strAreas, List.length_zip, hcount, List.length_map]
          omega
        · simp [strAreas]
      have hin := (hst.within _ hmem).2
      have hsmall := h.small
      dsimp only at hin
      omega
    · rw [List.getElem_append_right (by omega)]
      simp

end stack

end Xv6Cow.Kernel
