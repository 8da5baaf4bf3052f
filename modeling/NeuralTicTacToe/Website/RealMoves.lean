import NeuralTicTacToe.Framework.Runs
import NeuralTicTacToe.Net.Moves
import NeuralTicTacToe.Website.Iterations

/-!
# Which input is taken as a move

Both programs take an input as a move if it is in the list of possible moves.  The list is padded
with the pair `(-1, -1)`, so on a board with a piece on it this pair is in the list, and the piece
is placed outside the board: the console program does so for the pair itself, the website program
for the slot number `-4`, whose quotient and remainder by `3` are both `-1`.  And a number that is
no `int` is not passed over: `cin` fails on it and the console program reads no later pair, and
`stoi` ends the website program with an exception, as on a line without a number.  All other input
is treated as it should be (`only_moves_taken_iff`).
-/

namespace NeuralTicTacToe

open Console.TicTacToe (coords cellAt)

/-- In the list of possible moves are the open cells, and the void pair unless the board is
empty. -/
lemma any_coords_iff {board : Board 3} (hpiece : ∃ x, board x ≠ 0) (rc : ℤ × ℤ) :
    ((possibleMoves board).any fun m => coords m = rc) = true ↔
      (∃ x, rc = coords (some x) ∧ board x = 0) ∨ rc = coords none := by
  have hvoid : none ∈ possibleMoves board := by
    have hlt : (openCells board).length < 9 := by
      obtain ⟨x, hx⟩ := hpiece
      show (openCells board).length < (cells 3).length
      refine List.length_filter_lt_length_iff_exists.2 ⟨x, mem_cells x, ?_⟩
      rwa [decide_eq_true_eq]
    refine List.mem_append_right _ (List.mem_replicate.2 ⟨?_, rfl⟩)
    omega
  simp only [List.any_eq_true, decide_eq_true_eq]
  constructor
  · rintro ⟨m, hm, rfl⟩
    cases m with
    | none => exact .inr rfl
    | some x => exact .inl ⟨x, rfl, some_mem_possibleMoves.1 hm⟩
  · rintro (⟨x, rfl, hx⟩ | rfl)
    · exact ⟨some x, some_mem_possibleMoves.2 hx, rfl⟩
    · exact ⟨none, hvoid, rfl⟩

/-- The void pair is outside the board. -/
lemma cellAt_void : cellAt (coords none) = none := by
  rw [Option.eq_none_iff_forall_ne_some]
  intro x hx
  exact Console.coords_ne_none x (Console.cellAt_eq_some_iff.1 hx)

namespace Console

open TicTacToe

/-- The program places the player's piece if the pair typed in is the row and the column of an
empty cell, reads on with nothing changed if not, and places no piece outside the board. -/
structure TakesOnlyMoves (g : TicTacToe) (rc : ℤ × ℤ) : Prop where
  places : ∀ x : Cell 3, rc = ((x.1 : ℤ), (x.2 : ℤ)) → g.board x = 0 → ∀ typed, ∃ nn,
    g.nn.playerMove (Function.update g.board x playerPiece) = some nn ∧
      g.playersMove (rc :: typed) =
        some (true, { g with board := Function.update g.board x playerPiece, nn := nn })
  ignores : (¬ ∃ x : Cell 3, rc = ((x.1 : ℤ), (x.2 : ℤ)) ∧ g.board x = 0) → ∀ typed,
    g.playersMove (rc :: typed) = g.playersMove typed
  inside : openCells g.board ≠ [] → readMove (possibleMoves g.board) [rc] = some rc →
    ∃ x, cellAt rc = some x

variable {g : TicTacToe} {rc : ℤ × ℤ}

/-- The player's move onto an open cell that is typed in. -/
lemma exists_playersMove {x : Cell 3} (hx : g.board x = 0) (typed : List (ℤ × ℤ)) : ∃ nn,
    g.nn.playerMove (Function.update g.board x playerPiece) = some nn ∧
      g.playersMove (coords (some x) :: typed) =
        some (true, { g with board := Function.update g.board x playerPiece, nn := nn }) := by
  have hopen : openCells g.board ≠ [] := List.ne_nil_of_mem (mem_openCells.2 hx)
  obtain ⟨nn, hmove⟩ := g.nn.exists_playerMove (Function.update g.board x playerPiece)
  refine ⟨nn, hmove, ?_⟩
  rw [playersMove_of_open hopen, readMove_of_open hx, Option.bind_some, cellAt_coords,
    Option.bind_some, hmove]
  rfl

/-- Of the pairs that can be typed in, only the void one and those with a number that is no `int`
are not treated as they should be. -/
lemma takesOnlyMoves_iff (hpiece : ∃ x, g.board x ≠ 0) : TakesOnlyMoves g rc ↔
    (IsInt rc.1 ∧ IsInt rc.2) ∧ rc ≠ (-1, -1) ∨ openCells g.board = [] := by
  have hany := any_coords_iff hpiece rc
  constructor
  · intro h
    by_contra hnot
    obtain ⟨hrc, hopen⟩ := not_or.1 hnot
    by_cases hint : IsInt rc.1 ∧ IsInt rc.2
    · obtain rfl : rc = (-1, -1) := by
        by_contra hne
        exact hrc ⟨hint, hne⟩
      obtain ⟨x, hx⟩ := h.inside hopen
        (by rw [readMove, if_pos hint, if_pos (hany.2 (.inr rfl))])
      exact coords_ne_none x (cellAt_eq_some_iff.1 hx)
    · -- `cin` fails, and the move that is typed in next is not read
      obtain ⟨x, hx⟩ := List.exists_mem_of_ne_nil _ hopen
      obtain ⟨nn, -, hmove⟩ := exists_playersMove (mem_openCells.1 hx) []
      have hreal : ¬ ∃ y, rc = coords (some y) ∧ g.board y = 0 := by
        rintro ⟨y, rfl, -⟩
        exact hint (isInt_coords (some y))
      have hignores := h.ignores hreal [coords (some x)]
      rw [hmove, playersMove_of_open hopen, readMove, if_neg hint] at hignores
      cases hignores
  · intro h
    refine ⟨fun x hrc hx typed => ?_, fun hnot typed => ?_, fun hopen hread => ?_⟩
    · obtain rfl : rc = coords (some x) := hrc
      exact exists_playersMove hx typed
    · by_cases hfull : openCells g.board = []
      · rw [playersMove_of_full hfull, playersMove_of_full hfull]
      · obtain ⟨hint, hne⟩ := h.resolve_right hfull
        have hrej : ¬ ((possibleMoves g.board).any fun m => coords m = rc) = true := by
          rw [hany]
          rintro (hreal | hvoid)
          · exact hnot hreal
          · exact hne hvoid
        rw [playersMove_of_open hfull, playersMove_of_open hfull, readMove, if_pos hint,
          if_neg hrej]
    · obtain ⟨m, hm, rfl⟩ := readMove_mem hread
      cases m with
      | none => exact absurd rfl (h.resolve_right hopen).2
      | some x => exact ⟨x, cellAt_coords x⟩

end Console

namespace Website

open TicTacToe

/-- The program places the player's piece if the first line of the move file is the slot number of
an empty cell, deletes the file and reads on with nothing changed if not, and places no piece
outside the board. -/
structure TakesOnlyMoves (g : TicTacToe) (line : Text) : Prop where
  places : ∀ x : Cell 3, stoi line = some (3 * (x.1 : ℤ) + x.2) → g.board x = 0 →
    ∀ (lines : List Text) (edits : List Edit) (files : Files), ∃ nn,
      g.nn.playerMove (Function.update g.board x playerPiece) = some nn ∧
        g.playersMove (some (some (line :: lines)) :: edits) files =
          some (true, { g with board := Function.update g.board x playerPiece, nn := nn },
            { files with
              player := none
              board := some (getPrintBoard (Function.update g.board x playerPiece)) })
  ignores : (¬ ∃ x : Cell 3, stoi line = some (3 * (x.1 : ℤ) + x.2) ∧ g.board x = 0) →
    ∀ (lines : List Text) (edits : List Edit) (files : Files),
      (g.playersMove (some (some (line :: lines)) :: edits) files).map (fun r => (r.1, r.2.1)) =
        (g.playersMove edits { files with player := none }).map fun r => (r.1, r.2.1)
  inside : openCells g.board ≠ [] → ∀ (files files' : Files) (rc : ℤ × ℤ),
    readMove (possibleMoves g.board) [some (some [line])] files = some (some rc, files') →
    ∃ x, cellAt rc = some x

variable {g : TicTacToe} {line : Text}

lemma readMove_line (moves : List (Option (Cell 3))) (line : Text) (lines : List Text)
    (edits : List Edit) (files : Files) :
    readMove moves (some (some (line :: lines)) :: edits) files =
      (stoi line).bind fun n =>
        if moves.any fun m => coords m = (n.tdiv 3, n.tmod 3)
        then some (some (n.tdiv 3, n.tmod 3), { files with player := none })
        else readMove moves edits { files with player := none } :=
  @readMove_of_line moves (some (some (line :: lines))) files line lines rfl edits

/-- Of the lines the move file can start with, only those without a number and the slot number of
the void pair are not treated as they should be. -/
lemma takesOnlyMoves_iff (hpiece : ∃ x, g.board x ≠ 0) :
    TakesOnlyMoves g line ↔
      (∃ n, stoi line = some n ∧ n ≠ -4) ∨ openCells g.board = [] := by
  have hany := fun n : ℤ => any_coords_iff hpiece (n.tdiv 3, n.tmod 3)
  constructor
  · intro h
    by_contra hnot
    obtain ⟨hslot, hopen⟩ := not_or.1 hnot
    cases hline : stoi line with
    | none =>
        -- `stoi` throws
        have hread := h.ignores (by simp [hline]) [] [none] {}
        rw [playersMove_of_open hopen, playersMove_of_open hopen, readMove_line, hline] at hread
        cases hread
    | some n =>
        have hn : n = -4 := by
          by_contra hne
          exact hslot ⟨n, hline, hne⟩
        have hvoid := (slot_void n).2 hn
        obtain ⟨x, hx⟩ := h.inside hopen {} {} _
          (by rw [readMove_line, hline, Option.bind_some, if_pos ((hany n).2 (.inr hvoid))])
        rw [hvoid, cellAt_void] at hx
        cases hx
  · intro h
    refine ⟨fun x hline hx lines edits files => ?_, fun hnot lines edits files => ?_,
      fun hopen files files' rc hread => ?_⟩
    · have hopen : openCells g.board ≠ [] := List.ne_nil_of_mem (mem_openCells.2 hx)
      have hcell := (slot_cell _ x).2 rfl
      obtain ⟨nn, hmove⟩ := g.nn.exists_playerMove (Function.update g.board x playerPiece)
      refine ⟨nn, hmove, ?_⟩
      rw [playersMove_of_open hopen, readMove_line, hline, Option.bind_some,
        if_pos ((hany _).2 (.inl ⟨x, hcell, hx⟩)), Option.bind_some, afterRead, hcell,
        Console.cellAt_coords, Option.bind_some, hmove]
      rfl
    · by_cases hfull : openCells g.board = []
      · rw [playersMove_of_full hfull, playersMove_of_full hfull]
        rfl
      · obtain ⟨n, hline, hne⟩ := h.resolve_right hfull
        have hrej : ¬ ((possibleMoves g.board).any
            fun m => coords m = (n.tdiv 3, n.tmod 3)) = true := by
          rw [hany, slot_void]
          rintro (⟨x, hx, hzero⟩ | hvoid)
          · exact hnot ⟨x, by rw [hline, (slot_cell n x).1 hx], hzero⟩
          · exact hne hvoid
        rw [playersMove_of_open hfull, playersMove_of_open hfull, readMove_line, hline,
          Option.bind_some, if_neg hrej]
    · obtain ⟨n, hline, hne⟩ := h.resolve_right hopen
      rw [readMove_line, hline, Option.bind_some] at hread
      split at hread
      · rename_i hacc
        simp only [Option.some.injEq, Prod.mk.injEq] at hread
        obtain ⟨rfl, _⟩ := hread
        rcases (hany n).1 hacc with ⟨x, hx, _⟩ | hvoid
        · exact ⟨x, Console.cellAt_eq_some_iff.2 hx.symm⟩
        · exact absurd ((slot_void n).1 hvoid) hne
      · cases hread

end Website

/-- **Every input but one is taken for what it is**, among those of type `int`: on a board with a
piece on it the console program is wrong about the pair `(-1, -1)` and numbers that are no `int`,
and the website program about the slot number `-4` and lines without an `int`, and both only if the
board is not full. -/
theorem only_moves_taken_iff {g : Console.TicTacToe} {w : Website.TicTacToe}
    (hg : ∃ x, g.board x ≠ 0) (hw : ∃ x, w.board x ≠ 0) (rc : ℤ × ℤ) (line : Text) :
    (Console.TakesOnlyMoves g rc ↔
      (IsInt rc.1 ∧ IsInt rc.2) ∧ rc ≠ (-1, -1) ∨ openCells g.board = []) ∧
      (Website.TakesOnlyMoves w line ↔
        (∃ n, stoi line = some n ∧ n ≠ -4) ∨ openCells w.board = []) :=
  ⟨Console.takesOnlyMoves_iff hg, Website.takesOnlyMoves_iff hw⟩

/-- The games with one piece on the board. -/
def opened : Console.TicTacToe × Website.TicTacToe :=
  ({ Console.TicTacToe.init with board := Function.update (createMatrix 3) (1, 1) aiPiece },
    { Website.TicTacToe.init with board := Function.update (createMatrix 3) (1, 1) aiPiece })

theorem only_moves_taken_iff_sample :
    (Console.TakesOnlyMoves opened.1 (2, 2) ↔ True) ∧
      (Website.TakesOnlyMoves opened.2 ['8'] ↔ True) := by
  obtain ⟨hconsole, hwebsite⟩ := @only_moves_taken_iff opened.1 opened.2 ⟨(1, 1), by decide⟩
    ⟨(1, 1), by decide⟩ (2, 2) ['8']
  exact ⟨hconsole.trans (iff_true_intro (.inl (by decide))),
    hwebsite.trans (iff_true_intro (.inl ⟨8, by decide, by decide⟩))⟩

open Runs in
/-- After the AI's first move both programs take the void pair for a move. -/
theorem not_only_moves_taken :
    (¬ ∀ steps m, Run Console.Machine.step Console.Machine.init steps m → m.control = .human →
      m.game.turn = true → (∃ x, m.game.board x ≠ 0) → ∀ rc, Console.TakesOnlyMoves m.game rc) ∧
    ¬ ∀ choice db files l₀ steps l,
      Website.enter Website.TicTacToe.init choice db files = some l₀ →
      Run Website.iteration l₀ steps l → Website.goesOn l = true → l.game.turn = true →
      (∃ x, l.game.board x ≠ 0) → ∀ line, Website.TakesOnlyMoves l.game line := by
  constructor
  · intro h
    obtain ⟨steps, m, hrun, hm⟩ := exists_run Console.Machine.step Console.Machine.init
      [.choose 1 0, .tick [] [4]]
      (fun _ m => m.control = .human ∧ m.game.turn = true ∧ (∃ x, m.game.board x ≠ 0) ∧
        openCells m.game.board ≠ []) (by decide +kernel)
    obtain ⟨hcontrol, hturn, hpiece, hopen⟩ := of_decide_eq_true hm
    rcases (Console.takesOnlyMoves_iff hpiece).1 (h _ _ hrun hcontrol hturn hpiece (-1, -1)) with
      ⟨_, hne⟩ | hfull
    · exact hne rfl
    · exact hopen hfull
  · intro h
    obtain ⟨steps, l, hrun, hl⟩ := exists_run Website.iteration Website.newGame [{ rands := [4] }]
      (fun _ l => Website.goesOn l = true ∧ l.game.turn = true ∧ (∃ x, l.game.board x ≠ 0) ∧
        openCells l.game.board ≠ []) (by decide +kernel)
    obtain ⟨hgoes, hturn, hpiece, hopen⟩ := of_decide_eq_true hl
    have htakes := h _ _ _ _ _ _ (Website.enter_newGame ⟨false, true, none⟩) hrun hgoes hturn
      hpiece ['-', '4']
    rcases (Website.takesOnlyMoves_iff hpiece).1 htakes with ⟨n, hn, hne⟩ | hfull
    · have hslot : stoi ['-', '4'] = some (-4) := by decide
      rw [hslot] at hn
      exact hne (Option.some.inj hn).symm
    · exact hopen hfull

end NeuralTicTacToe
