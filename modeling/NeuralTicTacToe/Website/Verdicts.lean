import NeuralTicTacToe.Website.Results
import NeuralTicTacToe.Website.Server

/-!
# What an ended program leaves in the files

On the server the files of a user are not read until other processes have done with them what they
do, and the quit check can put a second code into the game file or the code of a stopped game where
the board was decided (`Website/Results.lean`).  Still the files of a program that has ended do not
lie (`results_told`): the board file shows the last board, a code other than `3` is that of the last
board, and without the code `3` there is just the one code.
-/

namespace NeuralTicTacToe.Website

open Runs Territories

/-- The codes say nothing false about the board: `3` aside they are its code, and without `3` there
is one. -/
structure Truthful (board : Board 3) (codes : List Text) : Prop where
  mem : ∀ c ∈ codes, c = ['3'] ∨ c = resultCode board
  only : ['3'] ∉ codes → codes = [resultCode board]
  length_le : codes.length ≤ 2

/-! ## The loop -/

section Loop

variable {g : TicTacToe} {choice : ℤ} {db : File} {files : Files} {l₀ l l' m : Loop} {i : Input}
  {steps : List (Loop × Input)}

/-- The codes of the last iteration. -/
lemma truthful_codes (hgoes : goesOn l = true) (hempty : l.gameOutcome = [])
    (hbody : body l i = some m) (hend : goesOn (quitCheck m i) = false) :
    Truthful m.game.board (codes m i) := by
  rcases judged_or_moved hgoes hempty hbody with ⟨-, hdue⟩ | ⟨hdue, hsuccess, hplayer, hai⟩
  · have hmem : ∀ c, c ∈ m.gameOutcome ∨ c ∈ (if m.success then [] else [['0']]) →
        c = resultCode m.game.board := fun c hc =>
      List.mem_singleton.1 (hdue ▸ List.mem_append.2 hc)
    have hlen := congrArg List.length hdue
    rw [List.length_append, List.length_singleton] at hlen
    refine ⟨fun c hc => ?_, fun hthree => ?_, ?_⟩
    · unfold codes at hc
      rcases List.mem_append.1 hc with hc | hc
      · rcases List.mem_append.1 hc with hc | hc
        · exact .inr (hmem c (.inl hc))
        · split at hc
          · exact .inl (List.mem_singleton.1 hc)
          · cases hc
      · exact .inr (hmem c (.inr hc))
    · cases hstops : stops m i with
      | true => exact absurd (by simp [codes, hstops]) hthree
      | false => simpa [codes, hstops] using hdue
    · unfold codes
      rw [List.length_append, List.length_append]
      split
      all_goals
        simp only [List.length_singleton, List.length_nil]
        omega
  · -- the loop has been stopped, as it would go on otherwise
    have hstops : stops m i = true := by
      by_contra hnot
      have hquit : (quitCheck m i).playerQuit = false := eq_false_of_ne_true hnot
      have hgoes' : goesOn (quitCheck m i) = true :=
        goesOn_iff.2 ⟨hplayer, hai, hsuccess, hquit⟩
      rw [hend] at hgoes'
      cases hgoes'
    have hcodes : codes m i = [['3']] := by simp [codes, hdue, hstops, hsuccess]
    rw [hcodes]
    exact ⟨fun c hc => .inl (List.mem_singleton.1 hc),
      fun hthree => absurd List.mem_cons_self hthree, by decide⟩

/-- The board file shows the board, or no move has been made. -/
def Displays (l : Loop) : Prop :=
  l.files.board = some (getPrintBoard l.game.board) ∨
    l.game.board = createMatrix 3 ∧ l.game.turn = false

/-- After an iteration the board file shows the board. -/
lemma Displays.iteration (h : Displays l) (hstep : Website.iteration l i = some l') :
    l'.files.board = some (getPrintBoard l'.game.board) := by
  obtain ⟨_, m, hbody, rfl⟩ := iteration_eq_some hstep
  have hm : m.files.board = some (getPrintBoard m.game.board) := by
    rcases h with hshown | ⟨hboard, hturn⟩
    · cases body_effect hbody with
      | playerWins => exact hshown
      | aiWins => exact hshown
      | full => exact hshown
      | idle => exact hshown
      | playersMove => rfl
      | aiMove => rfl
    · have hover : ¬ gameOver l.game.board := by
        rw [hboard]
        decide
      cases body_effect hbody with
      | playerWins hwon => exact absurd (.inl hwon) hover
      | aiWins _ hwon => exact absurd (.inr (.inl hwon)) hover
      | full _ _ hfull => exact absurd (.inr (.inr hfull)) hover
      | idle _ hturn' => exact absurd (hturn.symm.trans hturn') (by decide)
      | playersMove _ hturn' => exact absurd (hturn.symm.trans hturn') (by decide)
      | aiMove => rfl
  exact hm

lemma displays_of_run (henter : enter g choice db files = some l₀)
    (hrun : Run iteration l₀ steps l) : Displays l := by
  induction hrun with
  | nil =>
      obtain ⟨nn, _, rfl⟩ := Option.map_eq_some_iff.1 henter
      exact .inr ⟨rfl, rfl⟩
  | snoc _ hstep ih => exact .inl (ih.iteration hstep)

/-- What a game that has come to its end has written. -/
lemma told_of_run (henter : enter g choice db files = some l₀) (hrun : Run iteration l₀ steps l)
    (hend : goesOn l = false) (hfinish : finish l = some l') :
    l'.files.board = some (getPrintBoard l'.game.board) ∧
      ∃ cs, l'.files.game = some cs ∧ Truthful l'.game.board cs := by
  have hfresh : l₀.gameOutcome = [] ∧ goesOn l₀ = true := by
    obtain ⟨nn, _, rfl⟩ := Option.map_eq_some_iff.1 henter
    exact ⟨rfl, rfl⟩
  cases hrun with
  | nil =>
      rw [hend] at hfresh
      cases hfresh.2
  | @snoc steps l₁ _ i hrun hstep =>
      have hdisplay := (displays_of_run henter hrun).iteration hstep
      have hlines := lines_gameOutcome hfresh.1 (hrun.snoc hstep)
      obtain ⟨hboard, hgame⟩ := finish_eq_some hfinish
      rw [(finish_files hfinish hlines).2] at hgame ⊢
      obtain ⟨hgoes, m, hbody, rfl⟩ := iteration_eq_some hstep
      obtain ⟨hempty, _⟩ := running hfresh.1 hrun hgoes
      rw [codes_eq] at hgame
      rw [hboard]
      exact ⟨hdisplay, _, hgame, truthful_codes hgoes hempty hbody hend⟩

end Loop

/-! ## The server -/

/-- **The files of an ended program do not lie.**  In every interleaving, when a program has ended
its user's board file shows the last board, and the game file holds one or two codes, which are true
of this board. -/
theorem results_told {s₀ s : Server} {steps : List (Server × (ℤ × UserAction))}
    (hidle : ∀ u, s₀.1 u = none) (hrun : Run serverStep s₀ steps s) {u : ℤ} {v : Locals}
    (hended : s.1 u = some (.ended v)) :
    Reads (s.2 (path u .board)) (some (getPrintBoard v.game.board)) ∧
      ∃ codes, Reads (s.2 (path u .game)) (some codes) ∧ Truthful v.game.board codes := by
  obtain ⟨choice, db, -, files, l₀, own, l, henter, hloop, htracks⟩ :=
    serves_of_run (hidle u) (Run.alone hrun u) _ hended
  cases htracks with
  | @ended l' hend hfinish hdisk =>
      obtain ⟨hboard, codes, hgame, htruthful⟩ := told_of_run henter hloop hend hfinish
      exact ⟨hboard ▸ hdisk.board, codes, hgame ▸ hdisk.game, htruthful⟩

/-- A user quits after the AI's first move. -/
def sampleEnd : List (ℤ × UserAction) :=
  [(1, .start 1 ⟨false, true, none⟩), (1, .operate [4]), (1, .operate []), (1, .operate []),
    (1, .operate []), (2, .start 1 ⟨false, true, none⟩), (1, .operate []),
    (1, .foreign (.quit (some []))), (1, .operate []), (1, .operate []), (1, .operate []),
    (2, .operate [0]), (1, .operate []), (1, .operate [])]

theorem results_told_sample : ∃ steps s v, Run serverStep noPrograms steps s ∧
    s.1 1 = some (.ended v) ∧ s.2 (path 1 .game) = some ['3', '\n'] ∧
    ∃ codes, Reads (s.2 (path 1 .game)) (some codes) ∧ Truthful v.game.board codes := by
  obtain ⟨steps, s, hrun, hs⟩ := exists_run serverStep noPrograms sampleEnd
    (fun _ s => !isRunning (s.1 1) ∧ (s.1 1).isSome ∧ s.2 (path 1 .game) = some ['3', '\n'])
    (by decide +kernel)
  obtain ⟨hstopped, hsome, hgame⟩ := of_decide_eq_true hs
  obtain ⟨p, hp⟩ := Option.isSome_iff_exists.1 hsome
  rw [hp] at hstopped
  obtain ⟨v, rfl⟩ := ended_of_not_running (by simpa using hstopped)
  exact ⟨steps, s, v, hrun, hp, hgame, (results_told (fun _ => rfl) hrun hp).2⟩

end NeuralTicTacToe.Website
