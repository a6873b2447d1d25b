import Xv6Cow.Itable.Discipline

/-! # The steps of the inode table

Every branch of `run` as one case, and the two cases of `iget`. -/

namespace Xv6Cow.Itable

open Fs (NINODE NFILE)

/-- The inode that an entry of the table is about. -/
def Sys.key (s : Sys) (k : ℕ) : ℕ × ℕ := ((s.itable k).dev, (s.itable k).inum)

/-- An inode on disk. -/
def Sys.at (s : Sys) (n : ℕ × ℕ) : Dinode := s.disk n.1 n.2

variable {N : ℕ} {s s' : Sys} {t : ℕ} {ok : Bool} {w : ℕ}

/-- `iget` finds the entry, or takes one that is not in use. -/
inductive Got (s : Sys) (n : ℕ × ℕ) : ℕ → Inode → Prop
  | found {ip : ℕ} (hip : ip < NINODE) (hr : 0 < (s.itable ip).ref) (hk : s.key ip = n) :
      Got s n ip { s.itable ip with ref := (s.itable ip).ref + 1 }
  | taken {ip : ℕ} (hip : ip < NINODE) (hn : ∀ k < NINODE, 0 < (s.itable k).ref → s.key k ≠ n)
      (hr : (s.itable ip).ref = 0) :
      Got s n ip { s.itable ip with dev := n.1, inum := n.2, ref := 1, valid := false }

theorem got_of_igetEntry {dev inum ip : ℕ} {i : Inode} (h : igetEntry s dev inum = some (ip, i)) :
    Got s (dev, inum) ip i := by
  unfold igetEntry at h
  split at h
  · rename_i k hfind
    have hp := List.find?_some hfind
    simp only [decide_eq_true_eq] at hp
    cases h
    exact .found (List.mem_range.1 (List.mem_of_find?_eq_some hfind)) hp.1 (Prod.ext hp.2.1 hp.2.2)
  · rename_i hnone
    split at h
    · cases h
    · rename_i k hfind
      cases h
      refine .taken (List.mem_range.1 (List.mem_of_find?_eq_some hfind)) (fun k hk hr he => ?_)
        (by simpa using List.find?_some hfind)
      have := List.find?_eq_none.1 hnone k (List.mem_range.2 hk)
      simp only [decide_eq_true_eq] at this
      exact this ⟨hr, congrArg Prod.fst he, congrArg Prod.snd he⟩

/-- The steps of process `t`, by what it has to do next. -/
inductive Ran (N : ℕ) (s : Sys) (t : ℕ) (ok : Bool) (w : ℕ) : Prog → Sys → Prop
  | beginOp {k : Prog} : Ran N s t ok w (.beginOp k)
      { s.setProc t { s.proc t with prog := k, tx := true } with outstanding := s.outstanding + 1 }
  | endLast {k : Prog} : Ran N s t ok w (.endOp k)
        { s.setProc t { s.proc t with prog := .commit k, tx := false } with
      outstanding := s.outstanding - 1, committing := true }
  | endOp {k : Prog} : Ran N s t ok w (.endOp k)
      { s.setProc t { s.proc t with prog := k, tx := false } with outstanding := s.outstanding - 1 }
  | commit {k : Prog} : Ran N s t ok w (.commit k) { s.goto t k with lh := 0, committing := false }
  | iget {dev inum ip : ℕ} {i : Inode} {k : ℕ → Prog} (hg : Got s (dev, inum) ip i) :
      Ran N s t ok w (.iget dev inum k) ((s.setEntry ip i).goOwn t (ip ::ₘ (s.proc t).own) (k ip))
  | idup {ip : ℕ} {k : Prog} : Ran N s t ok w (.idup ip k)
      ((s.setEntry ip { s.itable ip with ref := (s.itable ip).ref + 1 }).goOwn t
        (ip ::ₘ (s.proc t).own) k)
  | ilock {ip : ℕ} {k : Prog} (hr : 0 < (s.itable ip).ref) (hl : (s.itable ip).lock = none)
      (hv : (s.itable ip).valid = true) :
      Ran N s t ok w (.ilock ip k) ((s.setEntry ip { s.itable ip with lock := some t }).goto t k)
  | ilockRead {ip : ℕ} {k : Prog} (hr : 0 < (s.itable ip).ref) (hl : (s.itable ip).lock = none)
      (hv : (s.itable ip).valid = false) (ht : (s.at (s.key ip)).type ≠ .none) :
      Ran N s t ok w (.ilock ip k)
      ((s.setEntry ip
        { s.itable ip with lock := some t, valid := true, din := s.at (s.key ip) }).goto t k)
  | iunlock {ip : ℕ} {k : Prog} (hl : (s.itable ip).lock = some t) : Ran N s t ok w (.iunlock ip k)
      ((s.setEntry ip { s.itable ip with lock := none }).goto t k)
  | inspect {ip : ℕ} {k : Inode → Prog} : Ran N s t ok w (.inspect ip k) (s.goto t (k (s.itable ip)))
  | update {ip : ℕ} {f : Dinode → Dinode} {k : Prog} : Ran N s t ok w (.update ip f k)
      ((s.change ip (f (s.itable ip).din) w).goto t k)
  | itrunc {ip : ℕ} {k : Prog} : Ran N s t ok w (.itrunc ip k)
      ((s.change ip { (s.itable ip).din with data := [] } w).goto t k)
  | writei {ip : ℕ} {k : Prog} : Ran N s t ok w (.writei ip k) ({ s with lh := s.lh + w }.goto t k)
  | lookupNone {dp : ℕ} {name : Name} {k : Option ℕ → Prog} (hd : (s.itable dp).din.type = .dir) :
      Ran N s t ok w (.dirlookup dp name k) (s.goto t (k none))
  | lookup {dp inum ip : ℕ} {i : Inode} {name : Name} {k : Option ℕ → Prog}
      (hd : (s.itable dp).din.type = .dir) (hl : lookup (s.itable dp).din name = some inum)
      (hg : Got s ((s.itable dp).dev, inum) ip i) :
      Ran N s t ok w (.dirlookup dp name k) ((s.setEntry ip i).goOwn t (ip ::ₘ (s.proc t).own)
        (k (some ip)))
  | addEntry {dp ip : ℕ} {name : Name} {k : Bool → Prog} : Ran N s t ok w (.addEntry dp name ip k)
      ((s.change dp { (s.itable dp).din with
        data := (s.itable dp).din.data ++ [(name, (s.itable ip).inum)] } w).goto t (k true))
  | addFail {dp ip : ℕ} {name : Name} {k : Bool → Prog} :
    Ran N s t ok w (.addEntry dp name ip k) (s.goto t (k false))
  | clearEntry {dp : ℕ} {name : Name} {k : Prog} : Ran N s t ok w (.clearEntry dp name k)
      ((s.change dp { (s.itable dp).din with
        data := (s.itable dp).din.data.eraseP fun e => e.1 = name } w).goto t k)
  | iputFree {ip : ℕ} {k : Prog} (hf : frees s ip) (hl : (s.itable ip).lock = none) :
      Ran N s t ok w (.iput ip k) ((s.setEntry ip { s.itable ip with lock := some t }).goto t
        (.free ip k))
  | iput {ip : ℕ} {k : Prog} (hf : ¬ frees s ip) : Ran N s t ok w (.iput ip k)
      ((s.setEntry ip { s.itable ip with ref := (s.itable ip).ref - 1 }).goOwn t
        ((s.proc t).own.erase ip) k)
  | free {ip : ℕ} {k : Prog} : Ran N s t ok w (.free ip k)
      ((s.change ip { (s.itable ip).din with type := .none, data := [] } w).goto t (.invalidate ip k))
  | invalidate {ip : ℕ} {k : Prog} : Ran N s t ok w (.invalidate ip k)
      ((s.setEntry ip { s.itable ip with valid := false }).goto t (.unlockFreed ip k))
  | unlockFreed {ip : ℕ} {k : Prog} : Ran N s t ok w (.unlockFreed ip k)
      ((s.setEntry ip { s.itable ip with lock := none }).goto t (.decref ip k))
  | decref {ip : ℕ} {k : Prog} : Ran N s t ok w (.decref ip k)
      ((s.setEntry ip { s.itable ip with ref := (s.itable ip).ref - 1 }).goOwn t
        ((s.proc t).own.erase ip) k)
  | iallocNone {dev inum : ℕ} {type : IType} {k : Option ℕ → Prog} :
      Ran N s t ok w (.ialloc dev type 0 inum k) (s.goto t (k none))
  | ialloc {dev m inum : ℕ} {type : IType} {k : Option ℕ → Prog} (hn : (s.disk dev inum).type = .none) :
      Ran N s t ok w (.ialloc dev type (m + 1) inum k)
        ({ s.setDisk dev inum { type := type, gen := s.clock } with
          clock := s.clock + 1, lh := s.lh + w }.goto t (.igetNew dev inum k))
  | iallocNext {dev m inum : ℕ} {type : IType} {k : Option ℕ → Prog} :
      Ran N s t ok w (.ialloc dev type (m + 1) inum k) (s.goto t (.ialloc dev type m (inum + 1) k))
  | igetNew {dev inum ip : ℕ} {i : Inode} {k : Option ℕ → Prog} (hg : Got s (dev, inum) ip i) :
      Ran N s t ok w (.igetNew dev inum k) ((s.setEntry ip i).goOwn t (ip ::ₘ (s.proc t).own)
        (k (some ip)))
  | openNone {f : File} {k : Option ℕ → Prog} : Ran N s t ok w (.openFile f k) (s.goto t (k none))
  | openFile {f : File} {x : ℕ} {k : Option ℕ → Prog} (hx : x < NFILE) (hn : s.file x = none) :
      Ran N s t ok w (.openFile f k) ({ s with file := Function.update s.file x (some f) }.setProc t
        { s.proc t with own := (s.proc t).own.erase f.ip, busy := some x, prog := k (some x) })
  | useNone {f : ℕ} {k : Option File → Prog} : Ran N s t ok w (.useFile f k) (s.goto t (k none))
  | useFile {f : ℕ} {g : File} {k : Option File → Prog} (hf : s.file f = some g) :
      Ran N s t ok w (.useFile f k) (s.setProc t { s.proc t with busy := some f, prog := k (some g) })
  | fileDone {k : Prog} : Ran N s t ok w (.fileDone k)
    (s.setProc t { s.proc t with busy := none, prog := k })
  | closeNone {f : ℕ} {k : Option ℕ → Prog} : Ran N s t ok w (.closeFile f k) (s.goto t (k none))
  | closeFile {f : ℕ} {g : File} {k : Option ℕ → Prog} (hf : s.file f = some g)
      (hu : ¬ usedByOther N s t f) :
        Ran N s t ok w (.closeFile f k) ({ s with file := Function.update s.file f none }.goOwn t
          (g.ip ::ₘ (s.proc t).own) (k (some g.ip)))
  | setCwd {ip : ℕ} {k : Prog} :
    Ran N s t ok w (.setCwd ip k) (s.setProc t { s.proc t with cwd := ip, prog := k })

theorem igetStep_cases {dev inum : ℕ} {k : ℕ → Prog} (h : igetStep s t dev inum k = some s') :
    ∃ ip i, Got s (dev, inum) ip i ∧ s' = (s.setEntry ip i).goOwn t (ip ::ₘ (s.proc t).own) (k ip) := by
  unfold igetStep at h
  split at h
  · cases h
  · rename_i ip i hg
    cases h
    exact ⟨ip, i, got_of_igetEntry hg, rfl⟩

theorem run_cases (h : run N s t ok w = some s') : Ran N s t ok w (s.proc t).prog s' := by
  unfold run at h
  cases hp : (s.proc t).prog <;> simp only [hp] at h
  case beginOp =>
      split_ifs at h
      cases h
      exact .beginOp
  case endOp =>
      split_ifs at h <;> cases h
      exacts [.endLast, .endOp]
  case iget =>
      obtain ⟨ip, i, hg, rfl⟩ := igetStep_cases h
      exact .iget hg
  case ilock =>
      split_ifs at h with hr hl hv ht <;> cases h
      · exact .ilock (by omega) (by simpa using hl) hv
      · exact .ilockRead (by omega) (by simpa using hl) (by simpa using hv) ht
  case iunlock =>
      split_ifs at h with hc
      cases h
      simp only [not_or, ne_eq, not_not] at hc
      exact .iunlock hc.1
  case dirlookup =>
      split_ifs at h with hd
      simp only [ne_eq, not_not] at hd
      split at h
      · cases h
        exact .lookupNone hd
      · rename_i hl
        obtain ⟨ip, i, hg, rfl⟩ := igetStep_cases h
        exact .lookup hd hl hg
  case addEntry =>
      split_ifs at h <;> cases h
      exacts [.addEntry, .addFail]
  case iput =>
      split_ifs at h with hf hl <;> cases h
      · exact .iputFree hf (by simpa using hl)
      · exact .iput hf
  case ialloc m _ _ =>
      cases m with
      | zero =>
          cases h
          exact .iallocNone
      | succ m =>
          simp only at h
          split_ifs at h with hn <;> cases h
          · exact .ialloc hn
          · exact .iallocNext
  case igetNew =>
      obtain ⟨ip, i, hg, rfl⟩ := igetStep_cases h
      exact .igetNew hg
  case openFile =>
      split at h
      · cases h
        exact .openNone
      · rename_i x hfind
        split_ifs at h <;> cases h
        · exact .openFile (List.mem_range.1 (List.mem_of_find?_eq_some hfind))
            (by simpa using List.find?_some hfind)
        · exact .openNone
  case useFile =>
      split at h <;> cases h
      · exact .useNone
      · exact .useFile (by assumption)
  case closeFile =>
      split at h
      · cases h
        exact .closeNone
      · split_ifs at h with hc <;> cases h
        · exact .closeFile (by assumption) hc.2
        · exact .closeNone
  case ret | die | panic => cases h
  all_goals (cases h; constructor)

/-- The steps of all processes. -/
inductive Step (N : ℕ) (s : Sys) (a : Act) : Sys → Prop
  | call {t : ℕ} {c : Call} (ht : t < N) (hp : (s.proc t).prog = .ret) :
      Step N s a (s.goto t (c.prog (s.proc t).cwd))
  | fork {t u : ℕ} (ht : t < N) (hu : u < N) (hp : (s.proc t).prog = .ret) (hd : (s.proc u).prog =
      .die) : Step N s a ((s.setEntry (s.proc t).cwd
          { s.itable (s.proc t).cwd with ref := (s.itable (s.proc t).cwd).ref + 1 }).setProc u
        { prog := .ret, cwd := (s.proc t).cwd, own := {(s.proc t).cwd} })
  | run {t : ℕ} {ok : Bool} {w : ℕ} {s' : Sys} (ha : a = .run t ok w) (ht : t < N)
      (h : Ran N s t ok w (s.proc t).prog s') : Step N s a s'

theorem eq_ret_of_isRet {k : Prog} (h : k.isRet = true) : k = .ret := by
  cases k <;> simp_all [Prog.isRet]

theorem eq_die_of_isDie {k : Prog} (h : k.isDie = true) : k = .die := by
  cases k <;> simp_all [Prog.isDie]

theorem step_cases {a : Act} (h : step N s a = some s') : Step N s a s' := by
  cases a with
  | call t c =>
      simp only [step, Option.ite_none_right_eq_some, Option.some.injEq] at h
      obtain ⟨⟨ht, hp⟩, rfl⟩ := h
      exact .call ht (eq_ret_of_isRet hp)
  | fork t u =>
      simp only [step, Option.ite_none_right_eq_some, Option.some.injEq] at h
      obtain ⟨⟨ht, hu, hp, hd⟩, rfl⟩ := h
      exact .fork ht hu (eq_ret_of_isRet hp) (eq_die_of_isDie hd)
  | run t ok w =>
      simp only [step, Option.ite_none_right_eq_some] at h
      exact .run rfl h.1 (run_cases h.2)

end Xv6Cow.Itable
