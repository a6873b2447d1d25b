import Xv6Cow.Fd.Model
import Xv6Cow.Fs.Inv

/-! # The references to open files

`Refs s held raw lent` is what holds inside a call: every file counts the descriptors that hold it
and the references that the call has itself (`held`, negative for one that it has dropped ahead of
the descriptor), and every inode the open files on it and the references of the call (`lent`).  The
files in `raw` have been allocated and not yet been given a type.

`Ends` is about the pipes alone: each end that is open belongs to one open file, and a page is kept
as long as one of its ends is open. -/

namespace Xv6Cow.Fd

open Fs (NFILE NOFILE NPROC NDEV fdSlots mem_fdSlots)
open Function (update update_self update_of_ne update_eq_self update_eq_self_iff update_idem
    update_apply)

variable {s s' : Sys} {held lent H L : ℕ → ℤ} {raw R : Set ℕ} {f p fd pi : ℕ} {g : File}

/-- How many descriptors hold each file. -/
def fds (s : Sys) : ℕ → ℤ := tally fdSlots (fun x => s.ofile x.1 x.2)

/-- The inode of an open file. -/
def File.target (f : File) : Option ℕ := if f.type = .inode ∨ f.type = .device then some f.ip else none

/-- How many open files each inode has. -/
def opens (s : Sys) : ℕ → ℤ := tally (Finset.range NFILE) (fun f => (s.ftable f).target)

/-- The pipe of an open file, and which end of it. -/
def File.end (f : File) : Option (ℕ × Bool) := if f.type = .pipe then some (f.pipe, f.writable) else none

/-- The ends that open files have. -/
def ends (s : Sys) : ℕ → Option (ℕ × Bool) := fun f => (s.ftable f).end

def Pipe.open (q : Pipe) (writable : Bool) : Bool := if writable then q.writeopen else q.readopen

/-! ### Pipes -/

/-- `e` tells which end each file has. -/
structure Ends (e : ℕ → Option (ℕ × Bool)) (pages : ℕ → Option Pipe) (allocs frees : ℕ → ℕ) : Prop where
  end_iff : ∀ pi w, (∃ q, pages pi = some q ∧ q.open w = true) ↔ ∃ f, e f = some (pi, w)
  one : ∀ {pi w f g}, e f = some (pi, w) → e g = some (pi, w) → f = g
  live : ∀ pi q, pages pi = some q → ∃ w, q.open w = true
  once : ∀ pi, allocs pi = frees pi + if (pages pi).isSome then 1 else 0

namespace Ends

variable {e e' : ℕ → Option (ℕ × Bool)} {pages : ℕ → Option Pipe} {allocs frees : ℕ → ℕ} {q : Pipe}
    {w : Bool}

theorem page_of_end (h : Ends e pages allocs frees) (hf : e f = some (pi, w)) :
    ∃ q, pages pi = some q ∧ q.open w = true := (h.end_iff pi w).2 ⟨f, hf⟩

@[simp] theorem open_shut (q : Pipe) (w v : Bool) : (q.shut w).open v = (q.open v && v != w) := by
  cases w <;> cases v <;> simp [Pipe.shut, Pipe.open]

theorem shut_closed (q : Pipe) : (q.readopen = false ∧ q.writeopen = false) ↔ ∀ w, q.open w = false := by
  simp [Pipe.open]

/-- The file `f` gives up its end, and the page is freed if that was the last. -/
theorem close (h : Ends e pages allocs frees) (hf : e f = some (pi, w)) (hq : pages pi = some q)
    {pages' : ℕ → Option Pipe} {frees' : ℕ → ℕ}
    (hp : (∀ v, (q.shut w).open v = false) ∧ pages' = update pages pi none ∧
        frees' = update frees pi (frees pi + 1) ∨
      (∃ v, (q.shut w).open v = true) ∧ pages' = update pages pi (some (q.shut w)) ∧ frees' = frees) :
    Ends (update e f none) pages' allocs frees' := by
  have hne : ∀ {x w'}, update e f none x = some (pi, w') ↔ e x = some (pi, w') ∧ w' ≠ w := by
    intro x w'
    obtain rfl | hx := eq_or_ne x f
    · simp [hf, eq_comm]
    · rw [update_of_ne hx]
      exact ⟨fun he => ⟨he, fun hw => hx (h.one (hw ▸ he) hf)⟩, fun he => he.1⟩
  have hother : ∀ {x pi' w'}, pi' ≠ pi →
      (update e f none x = some (pi', w') ↔ e x = some (pi', w')) := by
    intro x pi' w' hp'
    obtain rfl | hx := eq_or_ne x f
    · simp [hf, Ne.symm hp']
    · rw [update_of_ne hx]
  have hends : ∀ w', (∃ x, e x = some (pi, w') ∧ w' ≠ w) ↔ (q.shut w).open w' = true := by
    intro w'
    rw [open_shut, Bool.and_eq_true, bne_iff_ne, exists_and_right, ← h.end_iff, hq]
    simp
  refine ⟨fun pi' w' => ?_, fun {pi' w' x y} hx hy => ?_, fun pi' q' hq' => ?_, fun pi' => ?_⟩
  · obtain rfl | hp' := eq_or_ne pi' pi
    · simp only [hne, hends]
      rcases hp with ⟨hs, rfl, _⟩ | ⟨_, rfl, _⟩
      · simp [hs]
      · simp
    · simp only [hother hp', ← h.end_iff]
      rcases hp with ⟨_, rfl, _⟩ | ⟨_, rfl, _⟩ <;> rw [update_of_ne hp']
  · obtain rfl | hp' := eq_or_ne pi' pi
    · exact h.one (hne.1 hx).1 (hne.1 hy).1
    · exact h.one ((hother hp').1 hx) ((hother hp').1 hy)
  · obtain rfl | hp' := eq_or_ne pi' pi
    · rcases hp with ⟨_, rfl, _⟩ | ⟨ho, rfl, _⟩
      · simp at hq'
      · simp only [update_self, Option.some.injEq] at hq'
        exact hq' ▸ ho
    · refine h.live pi' q' ?_
      rcases hp with ⟨_, rfl, _⟩ | ⟨_, rfl, _⟩ <;> rwa [update_of_ne hp'] at hq'
  · have := h.once pi'
    obtain rfl | hp' := eq_or_ne pi' pi
    · rcases hp with ⟨_, rfl, rfl⟩ | ⟨_, rfl, rfl⟩ <;> simpa [hq] using this
    · rcases hp with ⟨_, rfl, rfl⟩ | ⟨_, rfl, rfl⟩ <;> simpa [hp'] using this

/-- The files `f` and `g` get the ends of a new pipe. -/
theorem create {g : ℕ} (h : Ends e pages allocs frees) (hfg : f ≠ g) (hf : e f = none)
    (hg : e g = none) (hp : pages pi = none) :
      Ends (update (update e f (some (pi, false))) g (some (pi, true)))
        (update pages pi (some ⟨true, true⟩)) (update allocs pi (allocs pi + 1)) frees := by
  have hnone : ∀ x w, e x ≠ some (pi, w) := by
    intro x w hx
    obtain ⟨q, hq, _⟩ := h.page_of_end hx
    simp [hp] at hq
  have hnew : ∀ {x w}, update (update e f (some (pi, false))) g (some (pi, true)) x = some (pi, w) ↔
      x = if w then g else f := by
    intro x w
    obtain rfl | hx := eq_or_ne x g
    · cases w <;> simp [Ne.symm hfg]
    · obtain rfl | hx' := eq_or_ne x f
      · cases w <;> simp [hx]
      · cases w <;> simp [hx, hx', hnone]
  have hother : ∀ {x pi' w}, pi' ≠ pi → (update (update e f (some (pi, false))) g (some (pi, true)) x =
      some (pi', w) ↔ e x = some (pi', w)) := by
    intro x pi' w hp'
    obtain rfl | hx := eq_or_ne x g
    · simp [hg, Ne.symm hp']
    · obtain rfl | hx' := eq_or_ne x f
      · simp [hx, hf, Ne.symm hp']
      · simp [hx, hx']
  refine ⟨fun pi' w => ?_, fun {pi' w x y} hx hy => ?_, fun pi' q hq => ?_, fun pi' => ?_⟩
  · obtain rfl | hp' := eq_or_ne pi' pi
    · simp only [hnew, exists_eq, iff_true]
      exact ⟨⟨true, true⟩, by simp, by cases w <;> rfl⟩
    · simp [hother hp', ← h.end_iff, update_of_ne hp']
  · obtain rfl | hp' := eq_or_ne pi' pi
    · rw [hnew.1 hx, hnew.1 hy]
    · exact h.one ((hother hp').1 hx) ((hother hp').1 hy)
  · obtain rfl | hp' := eq_or_ne pi' pi
    · simp only [update_self, Option.some.injEq] at hq
      exact ⟨true, hq ▸ rfl⟩
    · rw [update_of_ne hp'] at hq
      exact h.live pi' q hq
  · have := h.once pi'
    obtain rfl | hp' := eq_or_ne pi' pi
    · simpa [hp] using this
    · simpa [hp'] using this

end Ends

/-! ### The invariant inside a call -/

structure Refs (s : Sys) (held : ℕ → ℤ) (raw : Set ℕ) (lent : ℕ → ℤ) : Prop where
  refs : (fun f => ((s.ftable f).ref : ℤ)) = fds s + held
  irefs : s.iref = opens s + lent
  small : ∀ f, 0 < (s.ftable f).ref → f < NFILE
  slot : ∀ p fd f, s.ofile p fd = some f → p < NPROC ∧ fd < NOFILE ∧ s.state p = .used
  proc : ∀ p, s.state p ≠ .unused → p < NPROC
  type : ∀ f, f ∉ raw → ((s.ftable f).ref = 0 ↔ (s.ftable f).type = .none)
  fresh : ∀ f ∈ raw, (s.ftable f).type = .none ∧ (s.ftable f).ref = 1

/-- All of it. -/
structure Inv (s : Sys) (held : ℕ → ℤ) (raw : Set ℕ) (lent : ℕ → ℤ) :
    Prop extends Refs s held raw lent where
  pipes : Ends (ends s) s.pages s.allocs s.frees

theorem opens_setFile (hf : f < NFILE) :
    opens (s.setFile f g) = opens s - ofRef (s.ftable f).target + ofRef g.target := by
  refine Eq.trans ?_ (tally_update (Finset.mem_range.2 hf) (fun f => (s.ftable f).target) g.target)
  unfold opens
  congr 1
  funext x
  obtain rfl | hx := eq_or_ne x f
  · simp [Sys.setFile]
  · simp [Sys.setFile, hx]

theorem fds_setFd {o : Option ℕ} (hp : p < NPROC) (hfd : fd < NOFILE) :
    fds (s.setFd p fd o) = fds s - ofRef (s.ofile p fd) + ofRef o := by
  refine Eq.trans ?_ (tally_update (mem_fdSlots.2 ⟨hp, hfd⟩ : (p, fd) ∈ fdSlots)
    (fun x => s.ofile x.1 x.2) o)
  unfold fds
  congr 1
  funext x
  obtain ⟨a, b⟩ := x
  simp only [Sys.setFd, update_apply, Prod.mk.injEq]
  split_ifs <;> simp_all

theorem fds_setFile : fds (s.setFile f g) = fds s := rfl

theorem ends_setFile : ends (s.setFile f g) = update (ends s) f g.end := by
  funext x
  obtain rfl | hx := eq_or_ne x f
  · simp [ends, Sys.setFile]
  · simp [ends, Sys.setFile, hx]

theorem Refs.setFile (h : Refs s held raw lent) (hf : f < NFILE) (hrest : ∀ x, x ≠ f → (x ∈ R ↔ x ∈ raw))
    (htype : f ∉ R → (g.ref = 0 ↔ g.type = .none)) (hfresh : f ∈ R → g.type = .none ∧ g.ref = 1)
    (hheld : H = held + Pi.single f ((g.ref : ℤ) - (s.ftable f).ref))
    (hlent : L = lent + ofRef (s.ftable f).target - ofRef g.target) : Refs (s.setFile f g) H R L where
  refs := by
    funext x
    have hx := congrFun h.refs x
    rw [fds_setFile, hheld]
    simp only [Pi.add_apply] at hx ⊢
    obtain rfl | he := eq_or_ne x f
    · simp only [Sys.setFile, update_self, Pi.single_eq_same]
      omega
    · simpa [Sys.setFile, he] using hx
  irefs := by
    rw [opens_setFile hf, hlent]
    refine h.irefs.trans ?_
    abel
  small x hx := by
    obtain rfl | he := eq_or_ne x f
    · exact hf
    · exact h.small x (by simpa [Sys.setFile, he] using hx)
  slot := h.slot
  proc := h.proc
  type x hx := by
    obtain rfl | he := eq_or_ne x f
    · simpa [Sys.setFile] using htype hx
    · simpa [Sys.setFile, he] using h.type x (fun hr => hx ((hrest x he).2 hr))
  fresh x hx := by
    obtain rfl | he := eq_or_ne x f
    · simpa [Sys.setFile] using hfresh hx
    · simpa [Sys.setFile, he] using h.fresh x ((hrest x he).1 hx)

section
variable (h : Inv s held raw lent)
include h

theorem Inv.setFd {o : Option ℕ} (fd : ℕ) (hp : p < NPROC) (hfd : fd < NOFILE)
    (ho : o.isSome → s.state p = .used) (hheld : H = held + ofRef (s.ofile p fd) - ofRef o) :
    Inv (s.setFd p fd o) H raw lent where
  refs := by
    rw [fds_setFd hp hfd, hheld]
    refine h.refs.trans ?_
    abel
  irefs := h.irefs
  small := h.small
  slot p' fd' f' hs := by
    obtain rfl | he := eq_or_ne p' p
    · obtain rfl | he' := eq_or_ne fd' fd
      · simp only [Sys.setFd, update_self] at hs
        exact ⟨hp, hfd, ho (by simp [hs])⟩
      · exact h.slot p' fd' f' (by simpa [Sys.setFd, he'] using hs)
    · exact h.slot p' fd' f' (by simpa [Sys.setFd, he] using hs)
  proc := h.proc
  type := h.type
  fresh := h.fresh
  pipes := h.pipes

theorem Inv.setIref (ip : ℕ) (d : ℤ) : Inv (s.setIref ip d) held raw (lent + Pi.single ip d) where
  refs := h.refs
  irefs := by
    funext x
    have hx := congrFun h.irefs x
    change update s.iref ip (s.iref ip + d) x = opens s x + (lent x + (Pi.single ip d : ℕ → ℤ) x)
    simp only [Pi.add_apply] at hx
    obtain rfl | he := eq_or_ne x ip
    · rw [update_self, Pi.single_eq_same, hx, add_assoc]
    · rw [update_of_ne he, Pi.single_eq_of_ne he, hx, add_zero]
  small := h.small
  slot := h.slot
  proc := h.proc
  type := h.type
  fresh := h.fresh
  pipes := h.pipes

/-- A file that a descriptor holds is in use, unless the call has dropped the reference already. -/
theorem Inv.ref_pos (hs : s.ofile p fd = some f) (hh : 0 ≤ held f) : 0 < (s.ftable f).ref := by
  obtain ⟨hp, hfd, _⟩ := h.slot p fd f hs
  have h1 : 1 ≤ fds s f := one_le_tally (i := (p, fd)) (mem_fdSlots.2 ⟨hp, hfd⟩) hs
  have h2 := congrFun h.refs f
  simp only [Pi.add_apply] at h2
  omega

/-! ### The functions of `file.c` and `pipe.c` -/

/-- `filealloc` finds a file of no type, and the caller has the one reference to it. -/
theorem filealloc_spec : wp filealloc (fun r s' => match r with
    | none => s' = s
    | some f =>
        f ∉ raw ∧ Inv s' (held + Pi.single f 1) (insert f raw) lent ∧ s'.ofile = s.ofile ∧
          s'.state = s.state ∧
        s'.pages = s.pages) (fun _ => False) s := by
  unfold filealloc
  rw [wp_bind, wp_get]
  cases hfind : (List.range NFILE).find? (fun f => (s.ftable f).ref = 0) with
  | none => simp
  | some f =>
      have hr : (s.ftable f).ref = 0 := by simpa using List.find?_some hfind
      have hf : f < NFILE := List.mem_range.1 (List.mem_of_find?_eq_some hfind)
      have hraw : f ∉ raw := fun hx => by simp [(h.fresh f hx).2] at hr
      have ht : (s.ftable f).type = .none := (h.type f hraw).1 hr
      simp only [wp_bind, wp_set, wp_pure]
      refine ⟨hraw, ⟨h.toRefs.setFile hf (fun x hx => by simp [hx]) (by simp) (fun _ => ⟨ht, rfl⟩)
        (by simp [hr]) (by simp [File.target]), ?_⟩, rfl, rfl, rfl⟩
      rw [ends_setFile]
      have : (File.end { s.ftable f with ref := 1 }) = ends s f := rfl
      rw [this, update_eq_self]
      exact h.pipes

theorem filedup_spec (hf : 0 < (s.ftable f).ref) (hraw : f ∉ raw) :
    wp (filedup f) (fun _ s' => Inv s' (held + Pi.single f 1) raw lent ∧ s'.ofile = s.ofile ∧
      s'.state = s.state) (fun _ => False) s := by
  have ht := h.type f hraw
  unfold filedup
  simp only [wp_bind, wp_get, wp_ite, wp_throw, wp_set]
  refine ⟨fun hlt => by omega, fun _ => ⟨⟨h.toRefs.setFile (h.small f hf) (fun _ _ => .rfl) (fun _ => ?_)
    (fun hx => absurd hx hraw) (by simp) (by simp [File.target]), ?_⟩, rfl, rfl⟩⟩
  · simp only [Nat.add_eq_zero_iff, one_ne_zero, and_false, false_iff, ← ht]
    omega
  · rw [ends_setFile]
    have : (File.end { s.ftable f with ref := (s.ftable f).ref + 1 }) = ends s f := rfl
    rw [this, update_eq_self]
    exact h.pipes

end

theorem pipeclose_spec {q : Pipe} {w : Bool} (hq : s.pages pi = some q) :
    wp (pipeclose pi w) (fun _ s' =>
    s' = { s with pages := s'.pages, frees := s'.frees } ∧
      ((∀ v, (q.shut w).open v = false) ∧ s'.pages = update s.pages pi none ∧
          s'.frees = update s.frees pi (s.frees pi + 1) ∨
        (∃ v, (q.shut w).open v = true) ∧ s'.pages = update s.pages pi (some (q.shut w)) ∧
          s'.frees = s.frees))
    (fun _ => False) s := by
  unfold pipeclose kfree
  rw [wp_bind, wp_get, hq, wp_bind, wp_set, wp_ite, wp_bind, wp_get, wp_ite, wp_throw, wp_set,
    wp_pure, Ends.shut_closed]
  refine ⟨fun hc => ⟨fun hn => by simp [Sys.setPipe] at hn, fun _ => ⟨rfl, .inl ⟨hc, ?_, rfl⟩⟩⟩,
    fun hc => ⟨rfl, .inr ⟨?_, rfl, rfl⟩⟩⟩
  · exact update_idem _ _ _
  · simpa only [not_forall, Bool.not_eq_false] using hc

theorem fileclose_spec (h : Inv s held raw lent) (hf : 0 < (s.ftable f).ref) :
    wp (fileclose f) (fun _ s' =>
    Inv s' (held - Pi.single f 1) (raw \ {f}) lent ∧ s'.ofile = s.ofile ∧
      s'.state = s.state) (fun _ => False) s := by
  have hsmall := h.small f hf
  have hrest : ∀ x, x ≠ f → (x ∈ raw \ {f} ↔ x ∈ raw) := fun x hx => by simp [hx]
  unfold fileclose
  simp only [wp_bind, wp_get, wp_ite, wp_throw, wp_set]
  refine ⟨fun hlt => by omega, fun _ => ⟨fun hlt => ?_, fun hlt => ?_⟩⟩
  · -- other references are left
    have ht := h.type f (fun hx => by simp [(h.fresh f hx).2] at hlt)
    refine ⟨⟨h.toRefs.setFile hsmall hrest (fun _ => ?_) (by simp) ?_ (by simp [File.target]), ?_⟩,
      rfl, rfl⟩
    · simp only
      rw [← ht]
      omega
    · rw [sub_eq_add_neg, ← Pi.single_neg]
      congr 2
      simp only
      omega
    · rw [ends_setFile]
      have : (File.end { s.ftable f with ref := (s.ftable f).ref - 1 }) = ends s f := rfl
      rw [this, update_eq_self]
      exact h.pipes
  · have h1 : (s.ftable f).ref = 1 := by omega
    have hR : ∀ {m : ℕ → ℤ}, m = lent + ofRef (s.ftable f).target →
        Refs (s.setFile f { s.ftable f with ref := 0, type := .none }) (held - Pi.single f 1)
        (raw \ {f}) m := by
      intro m hm
      refine h.toRefs.setFile hsmall hrest (by simp) (by simp) ?_ (by simp [hm, File.target])
      rw [sub_eq_add_neg, ← Pi.single_neg]
      simp [h1]
    have hE : ends (s.setFile f { s.ftable f with ref := 0, type := .none }) =
        update (ends s) f none := by
      simp [ends_setFile, File.end]
    have hsame : (s.ftable f).type ≠ .pipe → update (ends s) f none = ends s := by
      intro hn
      rw [update_eq_self_iff]
      simp [ends, File.end, hn]
    cases ht : (s.ftable f).type with
    | none =>
        rw [wp_pure]
        refine ⟨⟨hR (by simp [File.target, ht]), ?_⟩, rfl, rfl⟩
        rw [hE, hsame (by simp [ht])]
        exact h.pipes
    | inode | device =>
        have hI : Inv (s.setFile f { s.ftable f with ref := 0, type := .none }) _ _ _ := ⟨hR rfl, by
          rw [hE, hsame (by simp [ht])]
          exact h.pipes⟩
        simp only [iput, wp_modify]
        refine ⟨?_, rfl, rfl⟩
        convert hI.setIref (s.ftable f).ip (-1) using 1
        simp [File.target, ht, Pi.single_neg]
    | pipe =>
        have hend : ends s f = some ((s.ftable f).pipe, (s.ftable f).writable) := by
          simp [ends, File.end, ht]
        obtain ⟨q, hq, _⟩ := h.pipes.page_of_end hend
        have hI := hR (m := lent) (by simp [File.target, ht])
        refine wp_post (pipeclose_spec
          (s := s.setFile f { s.ftable f with ref := 0, type := .none }) hq) fun _ s' hs => ?_
        obtain ⟨hs, hp⟩ := hs
        rw [hs]
        refine ⟨⟨⟨hI.refs, hI.irefs, hI.small, hI.slot, hI.proc, hI.type, hI.fresh⟩, ?_⟩, rfl, rfl⟩
        change Ends (ends (s.setFile f { s.ftable f with ref := 0, type := .none })) _ _ _
        rw [hE]
        exact h.pipes.close hend hq hp

end Xv6Cow.Fd
