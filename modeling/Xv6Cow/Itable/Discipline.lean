import Xv6Cow.Itable.Model

/-! # What a system call may do next

`Disc k c` says that the program `k` uses inodes as the kernel means it to, given what the process
has (`Ctx`): its pointers and locks, and what it has found out about them.  A lock is taken on an
inode that the process has a pointer to, and a second one only below a directory that is locked
already; a pointer is dropped once, and not while a lock depends on it; `begin_op` is called with
nothing held.  Whatever the answer of a command is, the rest of the program keeps to the same rules.

The programs of all system calls do (`Call.disc`). -/

namespace Xv6Cow.Itable

/-- What a process has, and what it knows. -/
structure Ctx where
  own : Multiset ℕ
  locks : Multiset ℕ
  -- locked inodes that are directories
  dirs : List ℕ
  -- pairs of a locked directory and an inode below it
  below : List (ℕ × ℕ)
  -- inodes that are not directories
  plain : List ℕ
  tx : Bool
  -- the inode of the file that the call uses
  bor : Option ℕ
  cwd : ℕ

namespace Ctx

/-- The locks do not depend on other pointers than `o`. -/
def supports (c : Ctx) (o : Multiset ℕ) : Prop := ∀ q ∈ c.locks, q ∈ o ∨ c.bor = some q

/-- The pointers `o` are left. -/
def drop (c : Ctx) (o : Multiset ℕ) : Ctx :=
  { c with own := o, below := c.below.filter (·.2 ∈ o), plain := c.plain.filter (· ∈ o) }

/-- The lock of `p` is released, and `l` are left. -/
def unlock (c : Ctx) (p : ℕ) (l : Multiset ℕ) : Ctx :=
  { c with locks := l, dirs := c.dirs.filter (· ≠ p), below := c.below.filter (·.1 ≠ p) }

/-- A pointer has been found in the directory `dp`. -/
def found (c : Ctx) (dp : ℕ) (name : Name) (p : ℕ) : Ctx :=
  { c with
    own := p ::ₘ c.own
    dirs := dp :: c.dirs
    below := if name.isDot then c.below else (dp, p) :: c.below }

/-- A pointer to a new inode. -/
def fresh (c : Ctx) (p : ℕ) : Ctx := { c with own := p ::ₘ c.own, below := c.dirs.map (·, p) ++ c.below }

/-- The fields of `p` have been seen. -/
def seen (c : Ctx) (p : ℕ) (i : Inode) : Ctx :=
  if i.din.type = .dir ∨ p ∉ c.own then c else { c with plain := p :: c.plain }

end Ctx

def Disc : Prog → Ctx → Prop
  | .ret, c => c.own = {c.cwd} ∧ c.locks = 0 ∧ c.tx = false ∧ c.bor = none
  | .die, c => c.own = 0 ∧ c.locks = 0 ∧ c.tx = false ∧ c.bor = none
  | .panic, _ => True
  | .beginOp k, c => c.locks = 0 ∧ c.tx = false ∧ Disc k { c with tx := true }
  | .endOp k, c => c.locks = 0 ∧ c.tx = true ∧ Disc k { c with tx := false }
  | .iget dev _ k, c => dev = ROOTDEV ∧ ∀ p, Disc (k p) { c with own := p ::ₘ c.own }
  | .idup p k, c => p ∈ c.own ∧ Disc k { c with own := p ::ₘ c.own }
  | .ilock p k, c => (p ∈ c.own ∨ c.bor = some p) ∧
      (c.locks = 0 ∨ ∃ dp, c.locks = {dp} ∧ dp ∈ c.dirs ∧ (dp, p) ∈ c.below) ∧
      Disc k { c with locks := p ::ₘ c.locks }
  | .iunlock p k, c => ∃ l, c.locks = p ::ₘ l ∧ Disc k (c.unlock p l)
  | .inspect p k, c => p ∈ c.locks ∧ ∀ i, i.dev = ROOTDEV → Disc (k i) (c.seen p i)
  | .update p f k, c => p ∈ c.locks ∧
      (∀ d, (f d).type = d.type ∧ (f d).data = d.data ∧ (f d).gen = d.gen) ∧ Disc k c
  | .itrunc p k, c => p ∈ c.locks ∧ Disc k c
  | .writei p k, c => p ∈ c.locks ∧ Disc k c
  | .dirlookup dp name k, c => dp ∈ c.locks ∧ Disc (k none) { c with dirs := dp :: c.dirs } ∧
      ∀ p, Disc (k (some p)) (c.found dp name p)
  | .addEntry dp name p k, c => dp ∈ c.locks ∧ p ∈ c.own ∧
      (name.isDot = true ∨ (dp, p) ∈ c.below ∨ p ∈ c.plain) ∧ ∀ b, Disc (k b) c
  | .clearEntry dp _ k, c => dp ∈ c.locks ∧ Disc k c
  | .iput p k, c => ∃ o, c.own = p ::ₘ o ∧ c.supports o ∧ Disc k (c.drop o)
  | .ialloc dev type _ _ k, c =>
      dev = ROOTDEV ∧ type ≠ .none ∧ Disc (k none) c ∧ ∀ p, Disc (k (some p)) (c.fresh p)
  | .openFile f k, c => ∃ o, c.own = f.ip ::ₘ o ∧ c.bor = none ∧ Disc (k none) c ∧
      ∀ x, Disc (k (some x)) { c.drop o with bor := some f.ip }
  | .useFile _ k, c =>
      c.bor = none ∧ Disc (k none) c ∧ ∀ f, Disc (k (some f)) { c with bor := some f.ip }
  | .fileDone k, c => c.locks = 0 ∧ Disc k { c with bor := none }
  | .closeFile _ k, c =>
      c.bor = none ∧ Disc (k none) c ∧ ∀ p, Disc (k (some p)) { c with own := p ::ₘ c.own }
  | .setCwd p k, c => Disc k { c with cwd := p }
  -- these do not stand in a program, but are what is left of a command
  | .commit _, _ | .free _ _, _ | .invalidate _ _, _ | .unlockFreed _ _, _ | .decref _ _, _
  | .igetNew _ _ _, _ => False

/-- The same for a process that may be in the middle of `end_op`, `iput` or `ialloc`. -/
def Now : Prog → Ctx → Prop
  | .commit k, c => c.locks = 0 ∧ Disc k c
  | .free p k, c | .invalidate p k, c | .unlockFreed p k, c | .decref p k, c =>
      ∃ o, c.own = p ::ₘ o ∧ c.supports o ∧ Disc k (c.drop o)
  | .igetNew dev _ k, c => dev = ROOTDEV ∧ ∀ p, Disc (k (some p)) (c.fresh p)
  | k, c => Disc k c

/-! ### Rules -/

/-- The process is in a transaction, with the pointers `o`, the locks `l` and the current directory
`w`; the inodes in `X` are not directories, those in `D` are, and the pairs in `B` are of a
directory and an inode below it. -/
structure In (w : ℕ) (o l : Multiset ℕ) (X D : List ℕ) (B : List (ℕ × ℕ)) (c : Ctx) : Prop where
  own : c.own = o
  locks : c.locks = l
  tx : c.tx = true
  bor : c.bor = none
  cwd : c.cwd = w
  plain : ∀ x ∈ X, x ∈ c.plain
  dirs : ∀ x ∈ D, x ∈ c.dirs
  below : ∀ x ∈ B, x ∈ c.below

namespace In

variable {w p dp ip : ℕ} {o l : Multiset ℕ} {X D : List ℕ} {B : List (ℕ × ℕ)} {c : Ctx} {k : Prog}
    {name : Name}

theorem iput (h : In w (p ::ₘ o) l X D B c) (hl : ∀ q ∈ l, q ∈ o) (hX : ∀ x ∈ X, x ∈ o)
    (hB : ∀ x ∈ B, x.2 ∈ o) (hk : ∀ c', In w o l X D B c' → Disc k c') : Disc (.iput p k) c := by
  refine ⟨o, h.own, fun q hq => .inl (hl q (h.locks ▸ hq)),
    hk _ ⟨rfl, h.locks, h.tx, h.bor, h.cwd, ?_, h.dirs, ?_⟩⟩
  · exact fun x hx => List.mem_filter.2 ⟨h.plain x hx, by simpa using hX x hx⟩
  · exact fun x hx => List.mem_filter.2 ⟨h.below x hx, by simpa using hB x hx⟩

theorem iunlock (h : In w o (p ::ₘ l) X D B c) (hk : ∀ c', In w o l X [] [] c' → Disc k c') :
    Disc (.iunlock p k) c :=
  ⟨l, h.locks, hk _ ⟨h.own, rfl, h.tx, h.bor, h.cwd, h.plain, by simp, by simp⟩⟩

theorem iunlockput (h : In w (p ::ₘ o) (p ::ₘ l) X D B c) (hl : ∀ q ∈ l, q ∈ o)
    (hX : ∀ x ∈ X, x ∈ o) (hk : ∀ c', In w o l X [] [] c' → Disc k c') : Disc (iunlockput p k) c :=
  h.iunlock fun _ h' => h'.iput hl hX (by simp) hk

theorem ilock (h : In w o 0 X D B c) (hp : p ∈ o) (hk : ∀ c', In w o {p} X [] [] c' → Disc k c') :
    Disc (.ilock p k) c := by
  refine ⟨.inl (h.own ▸ hp), .inl h.locks, hk _ ⟨h.own, ?_, h.tx, h.bor, h.cwd, h.plain, by simp,
    by simp⟩⟩
  rw [h.locks]
  rfl

/-- The lock of an inode below a directory that is locked. -/
theorem ilock_below (h : In w o {dp} X D B c) (hp : p ∈ o) (hd : dp ∈ D) (hb : (dp, p) ∈ B)
    (hk : ∀ c', In w o (p ::ₘ {dp}) X D B c' → Disc k c') : Disc (.ilock p k) c := by
  refine ⟨.inl (h.own ▸ hp), .inr ⟨dp, h.locks, h.dirs dp hd, h.below _ hb⟩,
    hk _ ⟨h.own, ?_, h.tx, h.bor, h.cwd, h.plain, h.dirs, h.below⟩⟩
  rw [h.locks]

theorem inspect {k : Inode → Prog} (h : In w o l X D B c) (hp : p ∈ l)
    (hk : ∀ i c', i.dev = ROOTDEV → In w o l X D B c' →
      (i.din.type ≠ .dir → p ∈ o → In w o l (p :: X) D B c') → Disc (k i) c') :
        Disc (.inspect p k) c := by
  refine ⟨h.locks ▸ hp, fun i hdev => hk i _ hdev ?_ fun hi hpo => ?_⟩
  · unfold Ctx.seen
    split
    · exact h
    · exact ⟨h.own, h.locks, h.tx, h.bor, h.cwd, fun x hx => List.mem_cons_of_mem _ (h.plain x hx),
        h.dirs, h.below⟩
  · have hn : ¬ (i.din.type = .dir ∨ p ∉ c.own) := by simp [hi, h.own, hpo]
    rw [Ctx.seen, if_neg hn]
    refine ⟨h.own, h.locks, h.tx, h.bor, h.cwd, fun x hx => ?_, h.dirs, h.below⟩
    exact List.mem_cons.2 ((List.mem_cons.1 hx).imp_right (h.plain x))

theorem dirlookup {k : Option ℕ → Prog} (h : In w o l X D B c) (hp : dp ∈ l)
    (hnone : ∀ c', In w o l X (dp :: D) B c' → Disc (k none) c')
    (hsome : ∀ q c', In w (q ::ₘ o) l X (dp :: D) (if name.isDot then B else (dp, q) :: B) c' →
      Disc (k (some q)) c') :
    Disc (.dirlookup dp name k) c := by
  have hdirs : ∀ x ∈ dp :: D, x ∈ dp :: c.dirs :=
    fun x hx => List.mem_cons.2 ((List.mem_cons.1 hx).imp_right (h.dirs x))
  refine ⟨h.locks ▸ hp, hnone _ ⟨h.own, h.locks, h.tx, h.bor, h.cwd, h.plain, hdirs, h.below⟩,
    fun q => hsome q _ ⟨by rw [← h.own]; rfl, h.locks, h.tx, h.bor, h.cwd, h.plain, hdirs, ?_⟩⟩
  unfold Ctx.found
  split_ifs with hdot
  · exact h.below
  · exact fun x hx => List.mem_cons.2 ((List.mem_cons.1 hx).imp_right (h.below x))

theorem update {f : Dinode → Dinode} (h : In w o l X D B c) (hp : p ∈ l)
    (hf : ∀ d, (f d).type = d.type ∧ (f d).data = d.data ∧ (f d).gen = d.gen) (hk : Disc k c) :
    Disc (.update p f k) c :=
  ⟨h.locks ▸ hp, hf, hk⟩

/-- `dirlink` of an inode below the directory, or of one that is not a directory. -/
theorem dirlink {k : Bool → Prog} (h : In w o l X D B c) (hdp : dp ∈ l) (hip : ip ∈ o)
    (hl : ∀ q ∈ l, q ∈ o) (hX : ∀ x ∈ X, x ∈ o) (hB : ∀ x ∈ B, x.2 ∈ o)
    (hn : name.isDot = true ∨ (dp, ip) ∈ B ∨ ip ∈ X)
    (hk : ∀ b c', In w o l X D B c' → Disc (k b) c') : Disc (dirlink dp name ip k) c := by
  refine h.dirlookup hdp (fun c' h' => ?_) fun q c' h' => ?_
  · have hweak : In w o l X D B c' :=
      ⟨h'.own, h'.locks, h'.tx, h'.bor, h'.cwd, h'.plain,
        fun x hx => h'.dirs x (List.mem_cons_of_mem _ hx), h'.below⟩
    refine ⟨h'.locks ▸ hdp, h'.own ▸ hip, ?_, fun b => hk b c' hweak⟩
    exact hn.imp_right (Or.imp (h'.below _) (h'.plain _))
  · have hweak : In w (q ::ₘ o) l X D B c' := by
      refine ⟨h'.own, h'.locks, h'.tx, h'.bor, h'.cwd, h'.plain,
        fun x hx => h'.dirs x (List.mem_cons_of_mem _ hx), fun x hx => h'.below x ?_⟩
      split_ifs
      · exact hx
      · exact List.mem_cons_of_mem _ hx
    exact hweak.iput hl hX hB (hk false)

theorem ialloc {k : Option ℕ → Prog} {dev m inum : ℕ} {type : IType} (h : In w o l X D B c)
    (hdev : dev = ROOTDEV) (htype : type ≠ .none) (hnone : Disc (k none) c)
    (hsome : ∀ q c', In w (q ::ₘ o) l X D (D.map (·, q) ++ B) c' → Disc (k (some q)) c') :
    Disc (.ialloc dev type m inum k) c := by
  refine ⟨hdev, htype, hnone, fun q => hsome q _ ⟨by rw [← h.own]; rfl, h.locks, h.tx, h.bor, h.cwd,
    h.plain, h.dirs, fun x hx => ?_⟩⟩
  refine List.mem_append.2 ((List.mem_append.1 hx).imp (fun hx => ?_) (h.below x))
  obtain ⟨d, hd, rfl⟩ := List.mem_map.1 hx
  exact List.mem_map.2 ⟨d, h.dirs d hd, rfl⟩

theorem endOp (h : In w {w} 0 X D B c) : Disc (.endOp .ret) c :=
  ⟨h.locks, h.tx, by simp [h.own, h.cwd], h.locks, rfl, h.bor⟩

/-! ### Paths -/

theorem namexFrom {parent : Bool} {elems : List Name} {k : Option (ℕ × Name) → Prog}
    (h : In w (ip ::ₘ o) 0 X D B c) (hX : ∀ x ∈ X, x ∈ o)
    (hnone : ∀ c', In w o 0 X [] [] c' → Disc (k none) c')
    (hsome : ∀ q e c', In w (q ::ₘ o) 0 X [] [] c' → Disc (k (some (q, e))) c') :
    Disc (namexFrom parent elems ip name k) c := by
  induction elems generalizing ip name c D B with
  | nil =>
      have h0 : In w (ip ::ₘ o) 0 X [] [] c := { h with dirs := by simp, below := by simp }
      unfold Itable.namexFrom
      split
      · exact h0.iput (by simp) hX (by simp) hnone
      · exact hsome _ _ _ h0
  | cons e elems ih =>
      refine h.ilock (by simp) fun c1 h1 => h1.inspect (by simp) fun i c2 _ h2 _ => ?_
      split_ifs
      · exact h2.iunlockput (l := 0) (by simp) hX hnone
      · exact h2.iunlock (l := 0) (hsome ip e)
      · refine h2.dirlookup (by simp) (fun c3 h3 => h3.iunlockput (l := 0) (by simp) hX hnone)
          fun q c3 h3 => ?_
        rw [Multiset.cons_swap] at h3
        refine h3.iunlockput (l := 0) (by simp) (fun x hx => by simp [hX x hx]) fun c4 h4 => ih h4

theorem namex {parent : Bool} {path : Path} {k : Option (ℕ × Name) → Prog} (h : In w o 0 X D B c)
    (hw : w ∈ o) (hX : ∀ x ∈ X, x ∈ o) (hnone : ∀ c', In w o 0 X [] [] c' → Disc (k none) c')
    (hsome : ∀ q e c', In w (q ::ₘ o) 0 X [] [] c' → Disc (k (some (q, e))) c') :
    Disc (namex w path parent k) c := by
  have hget : ∀ q, In w (q ::ₘ o) 0 X D B { c with own := q ::ₘ c.own } := fun q =>
    ⟨by rw [← h.own], h.locks, h.tx, h.bor, h.cwd, h.plain, h.dirs, h.below⟩
  unfold Itable.namex
  split
  · exact ⟨rfl, fun q => (hget q).namexFrom hX hnone hsome⟩
  · exact ⟨h.own ▸ hw, (hget w).namexFrom hX hnone hsome⟩

theorem namei {path : Path} {k : Option ℕ → Prog} (h : In w o 0 X D B c) (hw : w ∈ o)
    (hX : ∀ x ∈ X, x ∈ o) (hnone : ∀ c', In w o 0 X [] [] c' → Disc (k none) c')
    (hsome : ∀ q c', In w (q ::ₘ o) 0 X [] [] c' → Disc (k (some q)) c') : Disc (namei w path k) c :=
  h.namex hw hX hnone fun q _ => hsome q

/-! ### System calls -/

/-- `create` returns with the lock of the inode. -/
theorem create {path : Path} {type : IType} {major : ℤ} {k : Option ℕ → Prog} (h : In w o 0 X D B c)
    (hw : w ∈ o) (htype : type ≠ .none)
    (hnone : ∀ c', In w o 0 [] [] [] c' → Disc (k none) c')
    (hsome : ∀ q c', In w (q ::ₘ o) {q} [] [] [] c' → Disc (k (some q)) c') :
    Disc (create w path type major k) c := by
  have hbare : In w o 0 [] [] [] c := { h with plain := by simp, dirs := by simp, below := by simp }
  refine hbare.namex hw (by simp) hnone fun dp name c1 h1 => ?_
  refine h1.ilock (by simp) fun c2 h2 => h2.dirlookup (by simp) (fun c3 h3 => ?_) fun ip c3 h3 => ?_
  · refine h3.inspect (by simp) fun d c4 hdev h4 _ => h4.ialloc hdev htype (h4.iunlockput
      (l := 0) (by simp) (by simp) hnone) fun ip c5 h5 => ?_
    have fail : ∀ {X D B c'}, In w (ip ::ₘ dp ::ₘ o) (ip ::ₘ {dp}) X D B c' →
        Disc (createFail dp ip k) c' := by
      intro X D B c' h'
      have h'' : In w (ip ::ₘ dp ::ₘ o) (ip ::ₘ {dp}) [] D B c' := { h' with plain := by simp }
      refine h''.update (by simp) (fun _ => ⟨rfl, rfl, rfl⟩)
        (h''.iunlockput (by simp) (by simp) fun c'' h'' => ?_)
      exact h''.iunlockput (l := 0) (by simp) (by simp) hnone
    have link : ∀ {c'}, In w (ip ::ₘ dp ::ₘ o) (ip ::ₘ {dp}) [] [dp] [(dp, ip)] c' →
        Disc (createLink dp name type ip k) c' := by
      intro c' h'
      have done : ∀ {D B c'}, In w (ip ::ₘ dp ::ₘ o) (ip ::ₘ {dp}) [] D B c' →
          Disc (Itable.iunlockput dp (k (some ip))) c' := by
        intro D B c' h'
        rw [Multiset.cons_swap, ← Multiset.insert_eq_cons ip {dp}, Multiset.pair_comm,
          Multiset.insert_eq_cons] at h'
        exact h'.iunlockput (by simp) (by simp) (hsome ip)
      refine h'.dirlink (by simp) (by simp) (by simp) (by simp) (by simp) (.inr (.inl (by simp)))
        fun b c'' h'' => ?_
      cases b with
      | false => exact fail h''
      | true =>
          simp only
          split_ifs
          · exact h''.update (by simp) (fun _ => ⟨rfl, rfl, rfl⟩) (done h'')
          · exact done h''
    refine h5.ilock_below (by simp) (by simp) (by simp) fun c6 h6 =>
      h6.update (by simp) (fun _ => ⟨rfl, rfl, rfl⟩) ?_
    have h7 : In w (ip ::ₘ dp ::ₘ o) (ip ::ₘ {dp}) [] [dp] [(dp, ip)] c6 := by simpa using h6
    split_ifs
    · refine h7.dirlink (by simp) (by simp) (by simp) (by simp) (by simp) (.inl rfl) fun b c8 h8 => ?_
      cases b with
      | false => exact fail h8
      | true =>
          refine h8.dirlink (by simp) (by simp) (by simp) (by simp) (by simp)
            (.inl rfl) fun b c9 h9 => ?_
          cases b with
          | false => exact fail h9
          | true => exact link h9
    · exact link h7
  · rw [Multiset.cons_swap] at h3
    refine h3.iunlockput (l := 0) (by simp) (by simp) fun c4 h4 => h4.ilock (by simp) fun c5 h5 => ?_
    refine h5.inspect (by simp) fun i c6 _ h6 _ => ?_
    split_ifs
    · exact hsome ip c6 h6
    · exact h6.iunlockput (l := 0) (by simp) (by simp) hnone

theorem openTail {omode : ℕ} (h : In w (ip ::ₘ {w}) {ip} X D B c) : Disc (openTail ip omode) c := by
  have hbare : In w (ip ::ₘ {w}) {ip} [] [] [] c :=
    { h with plain := by simp, dirs := by simp, below := by simp }
  refine hbare.inspect (by simp) fun i c1 _ h1 _ => ?_
  have out : Disc (Itable.iunlockput ip (.endOp .ret)) c1 :=
    h1.iunlockput (l := 0) (by simp) (by simp) fun _ h' => h'.endOp
  have tail : Disc (.iunlock ip (.endOp (.fileDone .ret))) { c1.drop {w} with bor := some ip } :=
    ⟨0, h1.locks, rfl, h1.tx, rfl, by simp [Ctx.unlock, Ctx.drop, h1.cwd], rfl, rfl, rfl⟩
  split
  · exact out
  · refine ⟨{w}, h1.own, h1.bor, out, fun f => ?_⟩
    split
    · exact ⟨by simp [Ctx.drop, h1.locks], tail⟩
    · exact tail

theorem linkBad (h : In w (ip ::ₘ {w}) 0 X D B c) : Disc (linkBad ip) c := by
  have hbare : In w (ip ::ₘ {w}) 0 [] D B c := { h with plain := by simp }
  refine hbare.ilock (by simp) fun c1 h1 => h1.update (by simp) (fun _ => ⟨rfl, rfl, rfl⟩) ?_
  exact h1.iunlockput (l := 0) (by simp) (by simp) fun _ h' => h'.endOp

theorem unlinkTail {i : Inode} (h : In w (ip ::ₘ dp ::ₘ {w}) (ip ::ₘ {dp}) X D B c) :
    Disc (unlinkTail dp name ip i) c := by
  have hbare : In w (dp ::ₘ ip ::ₘ {w}) (dp ::ₘ {ip}) [] D B c := by
    rw [Multiset.cons_swap, ← Multiset.insert_eq_cons dp {ip}, Multiset.pair_comm]
    exact { h with plain := by simp }
  have rest : Disc (unlinkTail.rest dp ip) c := by
    refine hbare.iunlockput (by simp) (by simp) fun c1 h1 =>
      h1.update (by simp) (fun _ => ⟨rfl, rfl, rfl⟩) ?_
    exact h1.iunlockput (l := 0) (by simp) (by simp) fun _ h' => h'.endOp
  refine ⟨by simp [h.locks], ?_⟩
  split
  · exact hbare.update (by simp) (fun _ => ⟨rfl, rfl, rfl⟩) rest
  · exact rest

end In

/-! ### System calls -/

/-- What a process has between its calls. -/
def Ctx.idle (w : ℕ) : Ctx where
  own := {w}
  locks := 0
  dirs := []
  below := []
  plain := []
  tx := false
  bor := none
  cwd := w

variable {w : ℕ}

theorem disc_beginOp {k : Prog} (hk : ∀ c, In w {w} 0 [] [] [] c → Disc k c) :
    Disc (.beginOp k) (.idle w) :=
  ⟨rfl, rfl, hk _ ⟨rfl, rfl, rfl, rfl, rfl, by simp, by simp, by simp⟩⟩

theorem disc_sysLink {old new : Path} : Disc (sysLink w old new) (.idle w) := by
  refine disc_beginOp fun c h => h.namei (by simp) (by simp) (fun _ h' => h'.endOp) fun ip c1 h1 => ?_
  refine h1.ilock (by simp) fun c2 h2 => h2.inspect (by simp) fun i c3 _ h3 hplain => ?_
  split_ifs with hdir
  · exact h3.iunlockput (l := 0) (by simp) (by simp) fun _ h' => h'.endOp
  · have h4 := hplain hdir (by simp)
    refine h4.update (by simp) (fun _ => ⟨rfl, rfl, rfl⟩) (h4.iunlock (l := 0) fun c5 h5 => ?_)
    refine h5.namex (by simp) (by simp) (fun _ h' => h'.linkBad) fun dp name c6 h6 =>
      h6.ilock (by simp) fun c7 h7 => ?_
    refine h7.inspect (by simp) fun d c8 _ h8 _ => ?_
    split
    · exact h8.iunlockput (l := 0) (by simp) (by simp) fun _ h' => h'.linkBad
    · refine h8.dirlink (by simp) (by simp) (by simp) (by simp) (by simp) (.inr (.inr (by simp)))
        fun b c9 h9 => ?_
      cases b with
      | false => exact h9.iunlockput (l := 0) (by simp) (by simp) fun _ h' => h'.linkBad
      | true =>
          refine h9.iunlockput (l := 0) (by simp) (by simp) fun c10 h10 => ?_
          have h11 : In w (ip ::ₘ {w}) 0 [] [] [] c10 := { h10 with plain := by simp }
          exact h11.iput (by simp) (by simp) (by simp) fun _ h' => h'.endOp

theorem disc_sysUnlink {path : Path} : Disc (sysUnlink w path) (.idle w) := by
  refine disc_beginOp fun c h => h.namex (by simp) (by simp) (fun _ h' => h'.endOp)
    fun dp name c1 h1 => ?_
  refine h1.ilock (by simp) fun c2 h2 => ?_
  split_ifs with hdot
  · exact h2.iunlockput (l := 0) (by simp) (by simp) fun _ h' => h'.endOp
  · refine h2.dirlookup (by simp) (fun c3 h3 => h3.iunlockput
      (l := 0) (by simp) (by simp) fun _ h' => h'.endOp) fun ip c3 h3 => ?_
    rw [if_neg hdot] at h3
    refine h3.ilock_below (by simp) (by simp) (by simp) fun c4 h4 =>
      h4.inspect (by simp) fun i c5 _ h5 _ => ?_
    split
    · trivial
    · split
      · refine h5.iunlockput (by simp) (by simp) fun c6 h6 => ?_
        exact h6.iunlockput (l := 0) (by simp) (by simp) fun _ h' => h'.endOp
      · exact h5.unlinkTail

theorem disc_sysOpen {path : Path} {omode : ℕ} : Disc (sysOpen w path omode) (.idle w) := by
  refine disc_beginOp fun c h => ?_
  split
  · exact h.create (by simp) (by simp) (fun _ h' => h'.endOp) fun ip c1 h1 => h1.openTail
  · refine h.namei (by simp) (by simp) (fun _ h' => h'.endOp) fun ip c1 h1 =>
      h1.ilock (by simp) fun c2 h2 => ?_
    refine h2.inspect (by simp) fun i c3 _ h3 _ => ?_
    split
    · exact h3.iunlockput (l := 0) (by simp) (by simp) fun _ h' => h'.endOp
    · exact h3.openTail

theorem disc_sysMake {path : Path} {type : IType} {major : ℤ} (htype : type ≠ .none) :
    Disc (sysMake w path type major) (.idle w) :=
  disc_beginOp fun _ h => h.create (by simp) htype (fun _ h' => h'.endOp) fun _ _ h1 =>
    h1.iunlockput (l := 0) (by simp) (by simp) fun _ h' => h'.endOp

theorem disc_sysChdir {path : Path} : Disc (sysChdir w path) (.idle w) := by
  refine disc_beginOp fun c h => h.namei (by simp) (by simp) (fun _ h' => h'.endOp) fun ip c1 h1 => ?_
  refine h1.ilock (by simp) fun c2 h2 => h2.inspect (by simp) fun i c3 _ h3 _ => ?_
  split
  · exact h3.iunlockput (l := 0) (by simp) (by simp) fun _ h' => h'.endOp
  · refine h3.iunlock (l := 0) fun c4 h4 => ?_
    rw [← Multiset.insert_eq_cons, Multiset.pair_comm, Multiset.insert_eq_cons] at h4
    refine h4.iput (by simp) (by simp) (by simp) fun c5 h5 => ⟨h5.locks, h5.tx, h5.own, h5.locks,
      rfl, h5.bor⟩

theorem disc_exec {path : Path} : Disc (exec w path) (.idle w) := by
  refine disc_beginOp fun c h => h.namei (by simp) (by simp) (fun _ h' => h'.endOp) fun ip c1 h1 => ?_
  refine h1.ilock (by simp) fun c2 h2 => h2.inspect (by simp) fun i c3 _ h3 _ => ?_
  exact h3.iunlockput (l := 0) (by simp) (by simp) fun _ h' => h'.endOp

theorem disc_readFile {ip : ℕ} {f : Inode → Prog} (hf : ∀ i, f i = .iunlock ip (.fileDone .ret)) :
    Disc (.ilock ip (.inspect ip f)) { Ctx.idle w with bor := some ip } := by
  refine ⟨.inr rfl, .inl rfl, by simp, fun i _ => ?_⟩
  rw [hf, Ctx.seen]
  split <;> exact ⟨0, rfl, rfl, rfl, rfl, rfl, rfl⟩

theorem disc_fileread {f : ℕ} : Disc (fileread f) (.idle w) := by
  refine ⟨rfl, ⟨rfl, rfl, rfl, rfl⟩, fun g => ?_⟩
  simp only
  split
  · exact ⟨rfl, rfl, rfl, rfl, rfl⟩
  · exact disc_readFile fun _ => rfl

theorem disc_filestat {f : ℕ} : Disc (filestat f) (.idle w) :=
  ⟨rfl, ⟨rfl, rfl, rfl, rfl⟩, fun _ => disc_readFile fun _ => rfl⟩

theorem disc_filewrite {f m : ℕ} : Disc (filewrite f m) (.idle w) := by
  have loop : ∀ (ip m : ℕ) (c : Ctx), c.own = {c.cwd} → c.locks = 0 → c.tx = false →
      c.bor = some ip → Disc (filewriteLoop ip m) c := by
    intro ip m
    induction m with
    | zero => exact fun c h1 h2 h3 _ => ⟨h2, h1, h2, h3, rfl⟩
    | succ m ih =>
        intro c h1 h2 h3 h4
        refine ⟨h2, h3, .inr h4, .inl h2, by simp, 0, by simp [h2], rfl, rfl, ?_⟩
        exact ih _ h1 rfl rfl h4
  refine ⟨rfl, ⟨rfl, rfl, rfl, rfl⟩, fun g => ?_⟩
  simp only
  split
  · exact ⟨rfl, rfl, rfl, rfl, rfl⟩
  · exact loop _ _ _ rfl rfl rfl rfl

theorem disc_fileclose {f : ℕ} {k : Prog} (hk : Disc k (.idle w)) : Disc (fileclose f k) (.idle w) := by
  refine ⟨rfl, hk, fun ip => ⟨rfl, rfl, {w}, rfl, by simp [Ctx.supports, Ctx.idle], rfl, rfl, ?_⟩⟩
  exact hk

theorem disc_exit {files : List ℕ} : Disc (exit w files) (.idle w) := by
  induction files with
  | nil => exact ⟨rfl, rfl, 0, rfl, by simp [Ctx.supports, Ctx.idle], rfl, rfl, rfl, rfl, rfl, rfl⟩
  | cons f files ih => exact disc_fileclose ih

/-- Every system call keeps to the rules. -/
theorem Call.disc (call : Call) : Disc (call.prog w) (.idle w) := by
  cases call with
  | «open» path omode => exact disc_sysOpen
  | mkdir path => exact disc_sysMake (by simp)
  | mknod path major => exact disc_sysMake (by simp)
  | link old new => exact disc_sysLink
  | unlink path => exact disc_sysUnlink
  | chdir path => exact disc_sysChdir
  | read f => exact disc_fileread
  | write f m => exact disc_filewrite
  | fstat f => exact disc_filestat
  | close f => exact disc_fileclose ⟨rfl, rfl, rfl, rfl⟩
  | exec path => exact disc_exec
  | exit files => exact disc_exit

end Xv6Cow.Itable
