import Xv6Cow.Sh.Grammar

/-! # The words of a command

`Cmd.words` lists the words a command points to: the arguments of a node, up to the first null
pointer, and the file names of redirections.  On the command of a derivation `nulterminate` writes a
zero at the end of each of them and nothing else (`Line.cuts`), and each of them is a word among the
tokens derived (`Line.words_mem`). -/

namespace Xv6Cow.Sh

/-- The words of the arguments. -/
def argWords : List (Option ℕ) → List (Option ℕ) → List Word
  | some q :: argv, some eq :: eargv => ⟨q, eq⟩ :: argWords argv eargv
  | _, _ => []

def Cmd.words : Cmd → List Word
  | .exec cmd => argWords cmd.argv cmd.eargv
  | .redir cmd file efile _ _ => cmd.words ++ [⟨file, efile⟩]
  | .pipe left right => left.words ++ right.words
  | .list left right => left.words ++ right.words
  | .back cmd => cmd.words

/-- The line with a terminator at the end of each word. -/
def cut (m : List UInt8) (ws : List Word) : List UInt8 := ws.foldl (fun m w => m.set w.eq 0) m

theorem cut_append (m : List UInt8) (ws vs : List Word) : cut m (ws ++ vs) = cut (cut m ws) vs :=
  List.foldl_append

/-! ### What `nulterminate` writes -/

/-- `nulterminate` returns, and has written the terminators of the words of the command. -/
def Cuts (cmd : Cmd) : Prop := ∀ m, nulterminate cmd m = .ok (cut m cmd.words)

theorem Cuts.redir {cmd : Cmd} (h : Cuts cmd) (file efile mode fd : ℕ) :
    Cuts (.redir cmd file efile mode fd) := by
  intro m
  rw [nulterminate, h m, Cmd.words, cut_append]
  rfl

theorem Cuts.pipe {left right : Cmd} (hl : Cuts left) (hr : Cuts right) : Cuts (.pipe left right) := by
  intro m
  rw [nulterminate, hl m, Cmd.words, cut_append]
  exact hr _

theorem Cuts.list {left right : Cmd} (hl : Cuts left) (hr : Cuts right) : Cuts (.list left right) := by
  intro m
  rw [nulterminate, hl m, Cmd.words, cut_append]
  exact hr _

theorem Cuts.backs {cmd : Cmd} (h : Cuts cmd) (amps : ℕ) : Cuts (Cmd.back^[amps] cmd) := by
  induction amps generalizing cmd with
  | zero => exact h
  | succ amps ih => exact ih (show Cuts (.back cmd) from h)

theorem Cuts.wrap {cmd : Cmd} (h : Cuts cmd) (rs : List Redir) : Cuts (wrap rs cmd) := by
  induction rs generalizing cmd with
  | nil => exact h
  | cons r rs ih => exact ih (h.redir _ _ _ _)

theorem cutArgs_words (ws : List Word) (n k : ℕ) (m : List UInt8) :
    cutArgs (ws.map (fun w => some w.q) ++ List.replicate (n + 1) none)
      (ws.map (fun w => some w.eq) ++ List.replicate k none) m = .ok (cut m ws) := by
  induction ws generalizing m with
  | nil => rfl
  | cons w ws ih => exact ih _

theorem argWords_words (ws : List Word) (n k : ℕ) :
    argWords (ws.map (fun w => some w.q) ++ List.replicate (n + 1) none)
      (ws.map (fun w => some w.eq) ++ List.replicate k none) = ws := by
  induction ws with
  | nil => rfl
  | cons w ws ih => exact congrArg (w :: ·) ih

theorem execNode_eq {ws : List Word} (h : ws.length < MAXARGS) :
    ∃ n k, execNode ws = ⟨ws.map (fun w => some w.q) ++ List.replicate (n + 1) none,
      ws.map (fun w => some w.eq) ++ List.replicate k none⟩ := by
  refine ⟨MAXARGS - ws.length - 1, MAXARGS - ws.length, ?_⟩
  rw [Nat.sub_add_cancel (by omega)]
  simp [execNode, pointers, Function.comp_def]

theorem words_execNode {ws : List Word} (h : ws.length < MAXARGS) : (Cmd.exec (execNode ws)).words =
    ws := by
  obtain ⟨n, k, he⟩ := execNode_eq h
  rw [Cmd.words, he]
  exact argWords_words ws n k

theorem cuts_execNode {ws : List Word} (h : ws.length < MAXARGS) : Cuts (.exec (execNode ws)) := by
  intro m
  rw [words_execNode h]
  obtain ⟨n, k, he⟩ := execNode_eq h
  rw [nulterminate, he]
  exact cutArgs_words ws n k m

mutual
theorem Line.cuts : (l : Line) → Cuts l.tree
  | .last p amps => (Pipe.cuts p).backs amps
  | .seq p amps rest => ((Pipe.cuts p).backs amps).list (Line.cuts rest)

theorem Pipe.cuts : (p : Pipe) → Cuts p.tree
  | .one e => Exec.cuts e
  | .more e rest => (Exec.cuts e).pipe (Pipe.cuts rest)

theorem Exec.cuts : (e : Exec) → Cuts e.tree
  | .block l redirs => (Line.cuts l).wrap redirs
  | .simple redirs args few =>
      Cuts.wrap (cuts_execNode (by rwa [List.length_map])) (redirs ++ args.flatMap Prod.snd)
end

/-! ### The words are among the tokens -/

theorem words_backs (cmd : Cmd) (amps : ℕ) : (Cmd.back^[amps] cmd).words = cmd.words := by
  induction amps generalizing cmd with
  | zero => rfl
  | succ amps ih => exact ih (.back cmd)

theorem words_wrap (rs : List Redir) (cmd : Cmd) : (wrap rs cmd).words = cmd.words ++
    rs.map Redir.file := by
  induction rs generalizing cmd with
  | nil => exact (List.append_nil _).symm
  | cons r rs ih =>
      refine (ih _).trans ?_
      rw [Cmd.words, List.append_assoc]
      rfl

theorem file_mem {r : Redir} {rs : List Redir} (h : r ∈ rs) : .word r.file ∈ redirsYield rs :=
  List.mem_flatMap.mpr ⟨r, h, by simp [redirYield]⟩

mutual
theorem Line.words_mem : (l : Line) → ∀ w ∈ l.tree.words, .word w ∈ l.yield
  | .last p amps => by
      intro w hw
      rw [Line.tree, words_backs] at hw
      exact List.mem_append_left _ (Pipe.words_mem p w hw)
  | .seq p amps rest => by
      intro w hw
      rw [Line.tree, Cmd.words, words_backs] at hw
      rw [Line.yield]
      rcases List.mem_append.mp hw with hw | hw
      · exact List.mem_append_left _ (Pipe.words_mem p w hw)
      · exact List.mem_append_right _ (List.mem_append_right _
          (List.mem_cons_of_mem _ (Line.words_mem rest w hw)))

theorem Pipe.words_mem : (p : Pipe) → ∀ w ∈ p.tree.words, .word w ∈ p.yield
  | .one e => Exec.words_mem e
  | .more e rest => by
      intro w hw
      rw [Pipe.tree, Cmd.words] at hw
      rw [Pipe.yield]
      rcases List.mem_append.mp hw with hw | hw
      · exact List.mem_append_left _ (Exec.words_mem e w hw)
      · exact List.mem_append_right _ (List.mem_cons_of_mem _ (Pipe.words_mem rest w hw))

theorem Exec.words_mem : (e : Exec) → ∀ w ∈ e.tree.words, .word w ∈ e.yield
  | .block l redirs => by
      intro w hw
      rw [Exec.tree, words_wrap] at hw
      rw [Exec.yield]
      apply List.mem_cons_of_mem
      rcases List.mem_append.mp hw with hw | hw
      · exact List.mem_append_left _ (Line.words_mem l w hw)
      · obtain ⟨r, hr, rfl⟩ := List.mem_map.mp hw
        exact List.mem_append_right _ (List.mem_cons_of_mem _ (file_mem hr))
  | .simple redirs args few => by
      intro w hw
      rw [Exec.tree, words_wrap, words_execNode (by rwa [List.length_map])] at hw
      rw [Exec.yield]
      rcases List.mem_append.mp hw with hw | hw
      · obtain ⟨arg, harg, rfl⟩ := List.mem_map.mp hw
        exact List.mem_append_right _ (List.mem_flatMap.mpr ⟨arg, harg, List.mem_cons_self⟩)
      · obtain ⟨r, hr, rfl⟩ := List.mem_map.mp hw
        rcases List.mem_append.mp hr with hr | hr
        · exact List.mem_append_left _ (file_mem hr)
        · obtain ⟨arg, harg, hr⟩ := List.mem_flatMap.mp hr
          exact List.mem_append_right _ (List.mem_flatMap.mpr ⟨arg, harg,
            List.mem_cons_of_mem _ (file_mem hr)⟩)
end

end Xv6Cow.Sh
