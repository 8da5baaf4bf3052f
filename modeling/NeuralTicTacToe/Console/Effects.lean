import NeuralTicTacToe.Model.Console

/-!
# What a step of the console program can do

`Effect` lists, with their guards, the things one step from a control point to the next can
do, and `step_effect` says there are no others.  Every invariant of the program is proved by
cases on `Effect`; nothing past this file unfolds a step.
-/

namespace NeuralTicTacToe.Console

open TicTacToe

/-- How the end of a game is judged: the outcome AI #1 receives and the one AI #2 receives. -/
inductive Verdict (board : Board 3) : Weight → Weight → Prop
  | ai : aiWon board = true → Verdict board .good .bad
  | player : playerWon board = true → Verdict board .bad .good
  | tie : openCells board = [] → Verdict board .bad .bad

/-- The effects of a step. -/
inductive Effect : Machine → Input → Machine → Prop
  | idle {g : TicTacToe} {choice numGames : ℤ} :
      Effect ⟨.menu, g⟩ (.choose choice numGames) ⟨.menu, g⟩
  | newHumanGame {g : TicTacToe} {numGames : ℤ} :
      Effect ⟨.menu, g⟩ (.choose 1 numGames)
        ⟨.human, { g with nn := { g.nn with piece := aiPiece } }.resetGame⟩
  | newSession {g : TicTacToe} {numGames : ℤ} :
      Effect ⟨.menu, g⟩ (.choose 2 numGames)
        ⟨.games numGames.toNat, { g with
          nn := { g.nn with piece := aiPiece }, nn2 := { g.nn2 with piece := playerPiece } }⟩
  | endSession {g : TicTacToe} {typed : List (ℤ × ℤ)} {rands : List ℕ} :
      Effect ⟨.games 0, g⟩ (.tick typed rands) ⟨.menu, g⟩
  | newGame {g : TicTacToe} {left : ℕ} {typed : List (ℤ × ℤ)} {rands : List ℕ} :
      Effect ⟨.games (left + 1), g⟩ (.tick typed rands) ⟨.ai left, g.resetGame⟩
  | playersMove {g : TicTacToe} {x : Cell 3} {nn : NN} {typed : List (ℤ × ℤ)} {rands : List ℕ} :
      ¬ gameOver g.board → g.turn = true → g.board x = 0 →
      g.nn.playerMove (Function.update g.board x playerPiece) = some nn →
      Effect ⟨.human, g⟩ (.tick typed rands)
        ⟨.human, ⟨Function.update g.board x playerPiece, false, nn, g.nn2⟩⟩
  | aiMove1 {c : Control} {g : TicTacToe} {nn nn2 : NN} {board : Board 3}
      {typed : List (ℤ × ℤ)} {rands : List ℕ} :
      (c = .human ∨ ∃ left, c = .ai left) → ¬ gameOver g.board → g.turn = false →
      g.nn.aiMove g.board (possibleMoves g.board) rands = some (nn, board) →
      g.nn2.playerMove board = some nn2 →
      Effect ⟨c, g⟩ (.tick typed rands) ⟨c, ⟨board, true, nn, nn2⟩⟩
  | aiMove2 {left : ℕ} {g : TicTacToe} {nn nn2 : NN} {board : Board 3}
      {typed : List (ℤ × ℤ)} {rands : List ℕ} :
      ¬ gameOver g.board → g.turn = true →
      g.nn2.aiMove g.board (possibleMoves g.board) rands = some (nn2, board) →
      g.nn.playerMove board = some nn →
      Effect ⟨.ai left, g⟩ (.tick typed rands) ⟨.ai left, ⟨board, false, nn, nn2⟩⟩
  | endHumanGame {g : TicTacToe} {turn : Bool} {w w2 : Weight} {nn : NN}
      {typed : List (ℤ × ℤ)} {rands : List ℕ} :
      Verdict g.board w w2 → g.nn.outcome w = some nn →
      Effect ⟨.human, g⟩ (.tick typed rands) ⟨.menu, { g with turn := turn, nn := nn }⟩
  | endAiGame {left : ℕ} {g : TicTacToe} {turn : Bool} {w w2 : Weight} {nn nn2 : NN}
      {typed : List (ℤ × ℤ)} {rands : List ℕ} :
      Verdict g.board w w2 → g.nn.outcome w = some nn → g.nn2.outcome w2 = some nn2 →
      Effect ⟨.ai left, g⟩ (.tick typed rands)
        ⟨.games left, { g with turn := turn, nn := nn, nn2 := nn2 }⟩

lemma Verdict.gameOver {board : Board 3} {w w2 : Weight} (h : Verdict board w w2) :
    gameOver board := by
  cases h with
  | ai h => exact .inr (.inl h)
  | player h => exact .inl h
  | tie h => exact .inr (.inr h)

lemma readMove_mem {moves : List (Option (Cell 3))} {typed : List (ℤ × ℤ)} {rc : ℤ × ℤ}
    (h : readMove moves typed = some rc) : ∃ m ∈ moves, coords m = rc := by
  induction typed with
  | nil => cases h
  | cons rc' typed ih =>
      rw [readMove] at h
      split at h
      · split at h
        · rename_i hany
          obtain rfl := Option.some.inj h
          simpa using hany
        · exact ih h
      · cases h

/-- The rows and columns in the list of possible moves are of type `int`. -/
lemma isInt_coords (m : Option (Cell 3)) : IsInt (coords m).1 ∧ IsInt (coords m).2 := by
  cases m with
  | none => decide
  | some x =>
      simp only [coords, IsInt]
      omega

lemma coords_inj {x y : Cell 3} : coords (some x) = coords (some y) ↔ x = y := by
  simp only [coords, Nat.cast_inj, Fin.val_inj, Prod.ext_iff]

/-- The pair that voids an entry of the list is no cell. -/
lemma coords_ne_none (x : Cell 3) : coords (some x) ≠ coords none := by
  intro h
  simp only [coords, Prod.mk.injEq] at h
  omega

lemma cellAt_coords : ∀ x : Cell 3, cellAt (coords (some x)) = some x := by decide

lemma cellAt_eq_some_iff {rc : ℤ × ℤ} {x : Cell 3} :
    cellAt rc = some x ↔ coords (some x) = rc := by
  constructor
  · intro h
    simpa using List.find?_some h
  · rintro rfl
    exact cellAt_coords x

/-- A pair in the list of possible moves that names a cell of the board names an open one. -/
lemma open_of_mem {board : Board 3} {m : Option (Cell 3)} {x : Cell 3}
    (hm : m ∈ possibleMoves board) (hx : cellAt (coords m) = some x) : board x = 0 := by
  have hcell := cellAt_eq_some_iff.1 hx
  cases m with
  | none => exact absurd hcell (coords_ne_none x)
  | some y =>
      rw [coords_inj] at hcell
      exact some_mem_possibleMoves.1 (hcell ▸ hm)

/-- A cell is in the list of possible moves if it is open. -/
lemma any_coords_cell {board : Board 3} {x : Cell 3} :
    ((possibleMoves board).any fun m => coords m = coords (some x)) = true ↔ board x = 0 := by
  simp only [List.any_eq_true, decide_eq_true_eq]
  constructor
  · rintro ⟨m, hm, heq⟩
    exact open_of_mem hm (cellAt_eq_some_iff.2 heq.symm)
  · intro hx
    exact ⟨some x, some_mem_possibleMoves.2 hx, rfl⟩

/-! ## The moves -/

section Moves

variable {g : TicTacToe}

lemma playersMove_of_full (hfull : openCells g.board = []) (typed : List (ℤ × ℤ)) :
    g.playersMove typed = some (false, g) := by
  unfold playersMove
  rw [if_pos (noPossibleMoves_iff.2 hfull)]

lemma playersMove_of_open (hopen : openCells g.board ≠ []) (typed : List (ℤ × ℤ)) :
    g.playersMove typed = (readMove (possibleMoves g.board) typed).bind fun rc =>
      (cellAt rc).bind fun x =>
        (g.nn.playerMove (Function.update g.board x playerPiece)).map fun nn =>
          (true, { g with board := Function.update g.board x playerPiece, nn := nn }) := by
  unfold playersMove
  rw [if_neg fun h => hopen (noPossibleMoves_iff.1 h)]
  simp only [Option.map_eq_bind]
  rfl

lemma aiMove_of_full (hfull : openCells g.board = []) (version : ℕ) (rands : List ℕ) :
    g.aiMove version rands = some (false, g) := by
  unfold TicTacToe.aiMove
  rw [if_pos (noPossibleMoves_iff.2 hfull)]

lemma aiMove1_of_open (hopen : openCells g.board ≠ []) (rands : List ℕ) :
    g.aiMove 1 rands = (g.nn.aiMove g.board (possibleMoves g.board) rands).bind fun r =>
      (g.nn2.playerMove r.2).map fun nn2 =>
        (true, { g with board := r.2, nn := r.1, nn2 := nn2 }) := by
  unfold TicTacToe.aiMove
  rw [if_neg fun h => hopen (noPossibleMoves_iff.1 h), if_pos rfl]
  simp only [Option.map_eq_bind]
  rfl

lemma aiMove2_of_open (hopen : openCells g.board ≠ []) (rands : List ℕ) :
    g.aiMove 2 rands = (g.nn2.aiMove g.board (possibleMoves g.board) rands).bind fun r =>
      (g.nn.playerMove r.2).map fun nn =>
        (true, { g with board := r.2, nn := nn, nn2 := r.1 }) := by
  unfold TicTacToe.aiMove
  rw [if_neg fun h => hopen (noPossibleMoves_iff.1 h), if_neg (by decide)]
  simp only [Option.map_eq_bind]
  rfl

end Moves

/-- What a `playersMove` can do. -/
lemma playersMove_eq_some {g g' : TicTacToe} {typed : List (ℤ × ℤ)} {success : Bool}
    (h : g.playersMove typed = some (success, g')) :
    success = false ∧ g' = g ∧ openCells g.board = [] ∨
      success = true ∧ openCells g.board ≠ [] ∧ ∃ x nn, g.board x = 0 ∧
        g.nn.playerMove (Function.update g.board x playerPiece) = some nn ∧
        g' = { g with board := Function.update g.board x playerPiece, nn := nn } := by
  by_cases hopen : openCells g.board = []
  · rw [playersMove_of_full hopen] at h
    obtain ⟨rfl, rfl⟩ := Prod.mk.inj (Option.some.inj h)
    exact .inl ⟨rfl, rfl, hopen⟩
  · rw [playersMove_of_open hopen] at h
    obtain ⟨rc, hread, h⟩ := Option.bind_eq_some_iff.1 h
    obtain ⟨x, hx, h⟩ := Option.bind_eq_some_iff.1 h
    obtain ⟨nn, hmove, h⟩ := Option.map_eq_some_iff.1 h
    obtain ⟨rfl, rfl⟩ := Prod.mk.inj h
    obtain ⟨m, hm, rfl⟩ := readMove_mem hread
    exact .inr ⟨rfl, hopen, x, nn, open_of_mem hm hx, hmove, rfl⟩

/-- What the `AIMove` of AI #1 can do. -/
lemma aiMove1_eq_some {g g' : TicTacToe} {rands : List ℕ} {success : Bool}
    (h : g.aiMove 1 rands = some (success, g')) :
    success = false ∧ g' = g ∧ openCells g.board = [] ∨
      success = true ∧ openCells g.board ≠ [] ∧ ∃ nn board nn2,
        g.nn.aiMove g.board (possibleMoves g.board) rands = some (nn, board) ∧
        g.nn2.playerMove board = some nn2 ∧
        g' = { g with board := board, nn := nn, nn2 := nn2 } := by
  by_cases hopen : openCells g.board = []
  · rw [aiMove_of_full hopen] at h
    obtain ⟨rfl, rfl⟩ := Prod.mk.inj (Option.some.inj h)
    exact .inl ⟨rfl, rfl, hopen⟩
  · rw [aiMove1_of_open hopen] at h
    obtain ⟨⟨nn, board⟩, hmove, h⟩ := Option.bind_eq_some_iff.1 h
    obtain ⟨nn2, hfeed, h⟩ := Option.map_eq_some_iff.1 h
    obtain ⟨rfl, rfl⟩ := Prod.mk.inj h
    exact .inr ⟨rfl, hopen, nn, board, nn2, hmove, hfeed, rfl⟩

/-- What the `AIMove` of AI #2 can do. -/
lemma aiMove2_eq_some {g g' : TicTacToe} {rands : List ℕ} {success : Bool}
    (h : g.aiMove 2 rands = some (success, g')) :
    success = false ∧ g' = g ∧ openCells g.board = [] ∨
      success = true ∧ openCells g.board ≠ [] ∧ ∃ nn2 board nn,
        g.nn2.aiMove g.board (possibleMoves g.board) rands = some (nn2, board) ∧
        g.nn.playerMove board = some nn ∧
        g' = { g with board := board, nn := nn, nn2 := nn2 } := by
  by_cases hopen : openCells g.board = []
  · rw [aiMove_of_full hopen] at h
    obtain ⟨rfl, rfl⟩ := Prod.mk.inj (Option.some.inj h)
    exact .inl ⟨rfl, rfl, hopen⟩
  · rw [aiMove2_of_open hopen] at h
    obtain ⟨⟨nn2, board⟩, hmove, h⟩ := Option.bind_eq_some_iff.1 h
    obtain ⟨nn, hfeed, h⟩ := Option.map_eq_some_iff.1 h
    obtain ⟨rfl, rfl⟩ := Prod.mk.inj h
    exact .inr ⟨rfl, hopen, nn2, board, nn, hmove, hfeed, rfl⟩

/-! ## The steps -/

lemma menuStep_effect (g : TicTacToe) (choice numGames : ℤ) :
    Effect ⟨.menu, g⟩ (.choose choice numGames) (Machine.menuStep g choice numGames) := by
  unfold Machine.menuStep
  split
  · rename_i h
    subst h
    exact .newHumanGame
  · split
    · rename_i h
      subst h
      exact .newSession
    · exact .idle

/-- What an iteration of the Human-vs-AI loop does with the result of its move. -/
def afterHuman : Bool × TicTacToe → Option Machine
  | (true, g) => some ⟨.human, g.changeTurn⟩
  | (false, g) => g.nn.badOutcome.bind fun nn => some ⟨.menu, { g.changeTurn with nn := nn }⟩

/-- What an iteration of the AI-vs-AI loop does with the result of its move. -/
def afterAi (left : ℕ) : Bool × TicTacToe → Option Machine
  | (true, g) => some ⟨.ai left, g.changeTurn⟩
  | (false, g) => g.nn.badOutcome.bind fun nn => g.nn2.badOutcome.bind fun nn2 =>
    some ⟨.games left, { g.changeTurn with nn := nn, nn2 := nn2 }⟩

section Undecided

variable {g : TicTacToe} {m : Machine} {typed : List (ℤ × ℤ)} {rands : List ℕ} {left : ℕ}

lemma humanStep_of_undecided (hplayer : ¬ playerWon g.board = true)
    (hai : ¬ aiWon g.board = true) (typed : List (ℤ × ℤ)) (rands : List ℕ) :
    Machine.humanStep g typed rands =
      (if g.turn then g.playersMove typed else g.aiMove 1 rands).bind afterHuman := by
  unfold Machine.humanStep
  rw [if_neg hplayer, if_neg hai]
  cases g.turn with
  | true =>
      exact congrArg (Option.bind _) (funext fun | (true, _) => rfl | (false, _) => rfl)
  | false =>
      exact congrArg (Option.bind _) (funext fun | (true, _) => rfl | (false, _) => rfl)

lemma aiStep_of_undecided (hplayer : ¬ playerWon g.board = true)
    (hai : ¬ aiWon g.board = true) (left : ℕ) (rands : List ℕ) :
    Machine.aiStep left g rands =
      (if g.turn then g.aiMove 2 rands else g.aiMove 1 rands).bind (afterAi left) := by
  unfold Machine.aiStep
  rw [if_neg hai, if_neg hplayer]
  cases g.turn with
  | true =>
      exact congrArg (Option.bind _) (funext fun | (true, _) => rfl | (false, _) => rfl)
  | false =>
      exact congrArg (Option.bind _) (funext fun | (true, _) => rfl | (false, _) => rfl)

/-- A full board is a tie for the human's AI. -/
lemma afterHuman_tie (hfull : openCells g.board = []) (h : afterHuman (false, g) = some m) :
    Effect ⟨.human, g⟩ (.tick typed rands) m := by
  obtain ⟨nn, hout, h⟩ := Option.bind_eq_some_iff.1 h
  obtain rfl := Option.some.inj h
  exact .endHumanGame (.tie hfull) hout

/-- It is bad for both AIs. -/
lemma afterAi_tie (hfull : openCells g.board = []) (h : afterAi left (false, g) = some m) :
    Effect ⟨.ai left, g⟩ (.tick typed rands) m := by
  obtain ⟨nn, hout, h⟩ := Option.bind_eq_some_iff.1 h
  obtain ⟨nn2, hout2, h⟩ := Option.bind_eq_some_iff.1 h
  obtain rfl := Option.some.inj h
  exact .endAiGame (.tie hfull) hout hout2

lemma humanStep_effect (h : Machine.humanStep g typed rands = some m) :
    Effect ⟨.human, g⟩ (.tick typed rands) m := by
  by_cases hplayer : playerWon g.board = true
  · unfold Machine.humanStep at h
    rw [if_pos hplayer] at h
    obtain ⟨nn, hout, h⟩ := Option.bind_eq_some_iff.1 h
    obtain rfl := Option.some.inj h
    exact .endHumanGame (.player hplayer) hout
  by_cases hai : aiWon g.board = true
  · unfold Machine.humanStep at h
    rw [if_neg hplayer, if_pos hai] at h
    obtain ⟨nn, hout, h⟩ := Option.bind_eq_some_iff.1 h
    obtain rfl := Option.some.inj h
    exact .endHumanGame (.ai hai) hout
  have hover (hopen : openCells g.board ≠ []) : ¬ gameOver g.board :=
    not_gameOver_iff.2 ⟨hplayer, hai, hopen⟩
  rw [humanStep_of_undecided hplayer hai] at h
  obtain ⟨⟨success, g'⟩, hmove, hafter⟩ := Option.bind_eq_some_iff.1 h
  cases hturn : g.turn with
  | true =>
      rw [hturn, if_pos rfl] at hmove
      rcases playersMove_eq_some hmove with ⟨rfl, rfl, hfull⟩ | ⟨rfl, hopen, x, nn, hx, hp, rfl⟩
      · exact afterHuman_tie hfull hafter
      · obtain rfl := Option.some.inj hafter
        simp only [changeTurn, hturn, Bool.not_true]
        exact .playersMove (hover hopen) hturn hx hp
  | false =>
      rw [hturn, if_neg Bool.false_ne_true] at hmove
      rcases aiMove1_eq_some hmove with ⟨rfl, rfl, hfull⟩ | ⟨rfl, hopen, nn, b, nn2, hm, hf, rfl⟩
      · exact afterHuman_tie hfull hafter
      · obtain rfl := Option.some.inj hafter
        simp only [changeTurn, hturn, Bool.not_false]
        exact .aiMove1 (.inl rfl) (hover hopen) hturn hm hf

lemma aiStep_effect (h : Machine.aiStep left g rands = some m) :
    Effect ⟨.ai left, g⟩ (.tick typed rands) m := by
  by_cases hai : aiWon g.board = true
  · unfold Machine.aiStep at h
    rw [if_pos hai] at h
    obtain ⟨nn, hout, h⟩ := Option.bind_eq_some_iff.1 h
    obtain ⟨nn2, hout2, h⟩ := Option.bind_eq_some_iff.1 h
    obtain rfl := Option.some.inj h
    exact .endAiGame (.ai hai) hout hout2
  by_cases hplayer : playerWon g.board = true
  · unfold Machine.aiStep at h
    rw [if_neg hai, if_pos hplayer] at h
    obtain ⟨nn2, hout2, h⟩ := Option.bind_eq_some_iff.1 h
    obtain ⟨nn, hout, h⟩ := Option.bind_eq_some_iff.1 h
    obtain rfl := Option.some.inj h
    exact .endAiGame (.player hplayer) hout hout2
  have hover (hopen : openCells g.board ≠ []) : ¬ gameOver g.board :=
    not_gameOver_iff.2 ⟨hplayer, hai, hopen⟩
  rw [aiStep_of_undecided hplayer hai] at h
  obtain ⟨⟨success, g'⟩, hmove, hafter⟩ := Option.bind_eq_some_iff.1 h
  cases hturn : g.turn with
  | true =>
      rw [hturn, if_pos rfl] at hmove
      rcases aiMove2_eq_some hmove with ⟨rfl, rfl, hfull⟩ | ⟨rfl, hopen, nn2, b, nn, hm, hf, rfl⟩
      · exact afterAi_tie hfull hafter
      · obtain rfl := Option.some.inj hafter
        simp only [changeTurn, hturn, Bool.not_true]
        exact .aiMove2 (hover hopen) hturn hm hf
  | false =>
      rw [hturn, if_neg Bool.false_ne_true] at hmove
      rcases aiMove1_eq_some hmove with ⟨rfl, rfl, hfull⟩ | ⟨rfl, hopen, nn, b, nn2, hm, hf, rfl⟩
      · exact afterAi_tie hfull hafter
      · obtain rfl := Option.some.inj hafter
        simp only [changeTurn, hturn, Bool.not_false]
        exact .aiMove1 (.inr ⟨left, rfl⟩) (hover hopen) hturn hm hf

end Undecided

/-- **Every step has one of the listed effects.** -/
theorem step_effect {m m' : Machine} {i : Input} (h : m.step i = some m') : Effect m i m' := by
  obtain ⟨c, g⟩ := m
  cases i with
  | choose choice numGames =>
      cases c with
      | menu =>
          obtain rfl := Option.some.inj h
          exact menuStep_effect g choice numGames
      | games left => cases left <;> cases h
      | human => cases h
      | ai left => cases h
  | tick typed rands =>
      cases c with
      | menu => cases h
      | games left =>
          cases left with
          | zero =>
              obtain rfl := Option.some.inj h
              exact .endSession
          | succ left =>
              obtain rfl := Option.some.inj h
              exact .newGame
      | human => exact humanStep_effect h
      | ai left => exact aiStep_effect h

/-! ## Steps that can be taken -/

/-- A finished AI-vs-AI game is judged in the next step, when the outcome functions end. -/
lemma aiStep_of_gameOver {left : ℕ} {g : TicTacToe} (hover : gameOver g.board)
    (hout : ∀ w, (g.nn.outcome w).isSome ∧ (g.nn2.outcome w).isSome) (rands : List ℕ) :
    ∃ m, Machine.aiStep left g rands = some m ∧ m.control = .games left := by
  obtain ⟨nn, hgood⟩ := Option.isSome_iff_exists.1 (hout .good).1
  obtain ⟨nn', hbad⟩ := Option.isSome_iff_exists.1 (hout .bad).1
  obtain ⟨nn2, hgood2⟩ := Option.isSome_iff_exists.1 (hout .good).2
  obtain ⟨nn2', hbad2⟩ := Option.isSome_iff_exists.1 (hout .bad).2
  by_cases hai : aiWon g.board = true
  · unfold Machine.aiStep
    rw [if_pos hai]
    exact ⟨_, by simp only [NN.goodOutcome, NN.badOutcome, hgood, hbad2]; rfl, rfl⟩
  by_cases hplayer : playerWon g.board = true
  · unfold Machine.aiStep
    rw [if_neg hai, if_pos hplayer]
    exact ⟨_, by simp only [NN.goodOutcome, NN.badOutcome, hgood2, hbad]; rfl, rfl⟩
  have hfull : openCells g.board = [] := (hover.resolve_left hplayer).resolve_left hai
  rw [aiStep_of_undecided hplayer hai, aiMove_of_full hfull, aiMove_of_full hfull, ite_self,
    Option.bind_some]
  simp only [afterAi, NN.badOutcome, hbad, hbad2, Option.bind_some]
  exact ⟨_, rfl, rfl⟩

/-- An undecided AI-vs-AI game goes on when the mover's `AIMove` returns. -/
lemma aiStep_of_aiMove1 {left : ℕ} {g : TicTacToe} {nn nn2 : NN} {board : Board 3}
    {rands : List ℕ} (hover : ¬ gameOver g.board) (hturn : g.turn = false)
    (hmove : g.nn.aiMove g.board (possibleMoves g.board) rands = some (nn, board))
    (hfeed : g.nn2.playerMove board = some nn2) :
    Machine.aiStep left g rands = some ⟨.ai left, ⟨board, true, nn, nn2⟩⟩ := by
  obtain ⟨hplayer, hai, hopen⟩ := not_gameOver_iff.1 hover
  rw [aiStep_of_undecided hplayer hai, hturn, if_neg Bool.false_ne_true, aiMove1_of_open hopen,
    hmove, Option.bind_some, hfeed, Option.map_some, hturn]
  rfl

lemma aiStep_of_aiMove2 {left : ℕ} {g : TicTacToe} {nn nn2 : NN} {board : Board 3}
    {rands : List ℕ} (hover : ¬ gameOver g.board) (hturn : g.turn = true)
    (hmove : g.nn2.aiMove g.board (possibleMoves g.board) rands = some (nn2, board))
    (hfeed : g.nn.playerMove board = some nn) :
    Machine.aiStep left g rands = some ⟨.ai left, ⟨board, false, nn, nn2⟩⟩ := by
  obtain ⟨hplayer, hai, hopen⟩ := not_gameOver_iff.1 hover
  rw [aiStep_of_undecided hplayer hai, hturn, if_pos rfl, aiMove2_of_open hopen, hmove,
    Option.bind_some, hfeed, Option.map_some, hturn]
  rfl

/-- AI #1's move in an undecided Human-vs-AI game. -/
lemma humanStep_of_aiMove1 {g : TicTacToe} {nn nn2 : NN} {board : Board 3} {rands : List ℕ}
    (hover : ¬ gameOver g.board) (hturn : g.turn = false)
    (hmove : g.nn.aiMove g.board (possibleMoves g.board) rands = some (nn, board))
    (hfeed : g.nn2.playerMove board = some nn2) (typed : List (ℤ × ℤ)) :
    Machine.humanStep g typed rands = some ⟨.human, ⟨board, true, nn, nn2⟩⟩ := by
  obtain ⟨hplayer, hai, hopen⟩ := not_gameOver_iff.1 hover
  rw [humanStep_of_undecided hplayer hai, hturn, if_neg Bool.false_ne_true,
    aiMove1_of_open hopen, hmove, Option.bind_some, hfeed, Option.map_some, hturn]
  rfl

lemma readMove_of_open {board : Board 3} {x : Cell 3} (hx : board x = 0) (typed : List (ℤ × ℤ)) :
    readMove (possibleMoves board) (coords (some x) :: typed) = some (coords (some x)) := by
  rw [readMove, if_pos (isInt_coords _), if_pos (any_coords_cell.2 hx)]

/-- The human's move onto an empty cell in an undecided game. -/
lemma humanStep_of_playersMove {g : TicTacToe} {nn : NN} {x : Cell 3}
    (hover : ¬ gameOver g.board) (hturn : g.turn = true) (hx : g.board x = 0)
    (hmove : g.nn.playerMove (Function.update g.board x playerPiece) = some nn)
    (rands : List ℕ) : Machine.humanStep g [coords (some x)] rands =
      some ⟨.human, ⟨Function.update g.board x playerPiece, false, nn, g.nn2⟩⟩ := by
  obtain ⟨hplayer, hai, hopen⟩ := not_gameOver_iff.1 hover
  rw [humanStep_of_undecided hplayer hai, hturn, if_pos rfl, playersMove_of_open hopen,
    readMove_of_open hx [], Option.bind_some, cellAt_coords, Option.bind_some, hmove,
    Option.map_some, hturn]
  rfl

/-- The end of a Human-vs-AI game that AI #1 has won. -/
lemma humanStep_of_aiWon {g : TicTacToe} {nn : NN} (hplayer : ¬ playerWon g.board = true)
    (hai : aiWon g.board = true) (hout : g.nn.goodOutcome = some nn) (typed : List (ℤ × ℤ))
    (rands : List ℕ) :
    Machine.humanStep g typed rands = some ⟨.menu, { g with nn := nn }⟩ := by
  unfold Machine.humanStep
  rw [if_neg hplayer, if_pos hai, hout]
  rfl

/-- The end of a tied Human-vs-AI game, found out by the human. -/
lemma humanStep_of_full {g : TicTacToe} {nn : NN} (hplayer : ¬ playerWon g.board = true)
    (hai : ¬ aiWon g.board = true) (hfull : openCells g.board = []) (hturn : g.turn = true)
    (hout : g.nn.badOutcome = some nn) (typed : List (ℤ × ℤ)) (rands : List ℕ) :
    Machine.humanStep g typed rands = some ⟨.menu, { g with turn := false, nn := nn }⟩ := by
  rw [humanStep_of_undecided hplayer hai, hturn, if_pos rfl, playersMove_of_full hfull,
    Option.bind_some, afterHuman, hout, Option.bind_some, changeTurn, hturn]
  rfl

end NeuralTicTacToe.Console
