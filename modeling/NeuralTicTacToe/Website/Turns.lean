import NeuralTicTacToe.Framework.Runs
import NeuralTicTacToe.Net.Playable
import NeuralTicTacToe.Website.Iterations

/-!
# Turns under polling

Whatever other processes do to the move file and whenever, the game on the website stays in step:
its net is at a node that holds the board, as deep as the turn requires (`InStep`).  So the AI is
ahead by one piece exactly when it is the player's turn, an iteration fills at most one empty cell
and changes no other, and the slot number the AI writes is that of the cell it has just filled
(`turns_in_step`).
-/

namespace NeuralTicTacToe.Website

open NN Runs TicTacToe

/-- The game's net, its position and its turn fit each other. -/
structure InStep (l : Loop) : Prop where
  playable : l.game.nn.Playable
  piece_eq : l.game.nn.piece = aiPiece
  position : l.game.nn.Position (if l.game.turn then 1 else 0) l.game.board

/-- What an iteration may do to the board and to the file of the AI's moves: nothing, place the
player's piece on an empty cell when it is the player's turn, or place the AI's piece on an empty
cell when it is the AI's turn and write the number of that cell. -/
inductive Moved (l l' : Loop) : Prop
  | idle : l'.game.board = l.game.board → l'.files.ai = l.files.ai → Moved l l'
  | player {x : Cell 3} :
      l.game.turn = true → l.game.board x = 0 →
      l'.game.board = Function.update l.game.board x playerPiece → l'.files.ai = l.files.ai →
      Moved l l'
  | ai {x : Cell 3} {s : ℤ} :
      l.game.turn = false → l.game.board x = 0 →
      l'.game.board = Function.update l.game.board x aiPiece →
      l'.files.ai = some [toStringInt s] → 0 ≤ s → s ≤ 8 →
      (s / 3, s % 3) = ((x.1 : ℤ), (x.2 : ℤ)) → Moved l l'

/-! ## Slot numbers -/

lemma findIdx_cells : ∀ x : Cell 3, (cells 3).findIdx (fun y => y = x) = 3 * (x.1 : ℕ) + x.2 := by
  decide

/-- The first cell that is different is the one that was filled. -/
lemma slotNum_update {board : Board 3} {x : Cell 3} (hx : board x = 0) {piece : Digit}
    (hpiece : piece ≠ 0) :
    slotNum board (Function.update board x piece) = 3 * (x.1 : ℕ) + x.2 := by
  rw [← findIdx_cells, slotNum]
  congr 1
  funext y
  by_cases hy : y = x
  · subst hy
    simp [hx, hpiece.symm]
  · simp [hy]

lemma slot_bounds : ∀ x : Cell 3, (0 : ℤ) ≤ (3 * (x.1 : ℕ) + x.2 : ℕ) ∧
    ((3 * (x.1 : ℕ) + x.2 : ℕ) : ℤ) ≤ 8 ∧
    (((3 * (x.1 : ℕ) + x.2 : ℕ) : ℤ) / 3, ((3 * (x.1 : ℕ) + x.2 : ℕ) : ℤ) % 3) =
      ((x.1 : ℤ), (x.2 : ℤ)) := by
  decide

/-! ## The game stays in step -/

namespace InStep

variable {l l' : Loop} {i : Input}

lemma enter {g : TicTacToe} {choice : ℤ} {db : File} {files : Files}
    (h : enter g choice db files = some l) (hnet : l.game.nn.Playable) : InStep l := by
  obtain ⟨nn, _, rfl⟩ := Option.map_eq_some_iff.1 h
  exact ⟨hnet, rfl, Position.start hnet rfl⟩

/-- The moves of a game in step are legal. -/
lemma moved (hl : InStep l) (h : iteration l i = some l') : Moved l l' := by
  obtain ⟨_, m, hbody, rfl⟩ := iteration_eq_some h
  cases body_effect hbody with
  | playerWins => exact .idle rfl rfl
  | aiWins => exact .idle rfl rfl
  | full => exact .idle rfl rfl
  | idle => exact .idle rfl rfl
  | playersMove _ hturn hx => exact .player hturn hx rfl rfl
  | aiMove hover hturn hmove =>
      have hpos := hl.position
      rw [hturn] at hpos
      obtain ⟨_, _, _, ⟨x, hx, rfl⟩, _⟩ := hpos.aiMove hl.playable hl.piece_eq
        (fun hfull => hover (.inr (.inr hfull))) hmove
      obtain ⟨hlow, hhigh, hcell⟩ := slot_bounds x
      refine .ai hturn hx rfl ?_ hlow hhigh hcell
      rw [← slotNum_update hx (show aiPiece ≠ 0 by decide)]
      rfl

/-- A game in step stays so as long as the loop goes on. -/
lemma step (hl : InStep l) (h : iteration l i = some l') (hgoes : goesOn l' = true) :
    InStep l' := by
  obtain ⟨_, m, hbody, rfl⟩ := iteration_eq_some h
  cases body_effect hbody with
  | playerWins => simp [goesOn, quitCheck] at hgoes
  | aiWins => simp [goesOn, quitCheck] at hgoes
  | full => simp [goesOn, quitCheck] at hgoes
  | idle => exact ⟨hl.playable, hl.piece_eq, hl.position⟩
  | playersMove _ hturn hx hmove =>
      have hpos := hl.position
      rw [hturn] at hpos
      obtain ⟨hplay, hpiece, hpos'⟩ := hpos.playerMove hl.playable ⟨_, hx, rfl⟩ hmove
      exact ⟨hplay, hpiece.trans hl.piece_eq, hpos'⟩
  | aiMove hover hturn hmove =>
      have hpos := hl.position
      rw [hturn] at hpos
      obtain ⟨hplay, hpiece, hpos', _⟩ := hpos.aiMove hl.playable hl.piece_eq
        (fun hfull => hover (.inr (.inr hfull))) hmove
      exact ⟨hplay, hpiece, hpos'⟩

end InStep

/-- **The game on the website keeps its turns** under every sequence of file observations: at the
start of an iteration the AI is one piece ahead if the player is to move and level if not, and an
iteration fills at most the one cell it reports. -/
theorem turns_in_step {choice : ℤ} {db : File} {files : Files} {l₀ l : Loop}
    (henter : enter TicTacToe.init choice db files = some l₀)
    (hnet : choice = 1 ∨ l₀.game.nn.Playable) {steps : List (Loop × Input)}
    (hrun : Run iteration l₀ steps l) :
    (goesOn l = true → (pieces aiPiece l.game.board : ℤ) - pieces playerPiece l.game.board =
      if l.game.turn then 1 else 0) ∧
    ∀ i l', iteration l i = some l' → Moved l l' := by
  have hplay : l₀.game.nn.Playable := by
    rcases hnet with rfl | hplay
    · obtain rfl := Option.some.inj henter
      exact (Playable.fresh.setPiece aiPiece).resetPtr
    · exact hplay
  have hinv : goesOn l = true → InStep l := by
    refine @Run.invariant _ _ _ _ (fun _ _ => True) (fun l => goesOn l = true → InStep l)
      (fun _ => .enter henter hplay) (fun s i s' hs _ hstep hgoes => ?_) _ _ hrun
      fun _ _ => trivial
    exact (hs (iteration_eq_some hstep).1).step hstep hgoes
  constructor
  · intro hgoes
    have hbalance := (hinv hgoes).position.pieces_eq (hinv hgoes).playable
    rw [hbalance]
    split
    · push_cast
      ring
    · push_cast
      ring
  · intro i l' hstep
    exact (hinv (iteration_eq_some hstep).1).moved hstep

/-- The AI moves, the player waits, tries the AI's cell, and moves, and the AI moves again. -/
def sampleGame : List Input :=
  [{ rands := [4] }, {}, { atReads := [some (some [['4']]), none] },
    { atReads := [some (some [['0'], ['8']])] }, { rands := [11] }]

theorem turns_in_step_sample : ∃ steps l, Run iteration newGame steps l ∧ steps.length = 5 ∧
    goesOn l = true ∧ l.game.turn = true ∧
    (pieces aiPiece l.game.board : ℤ) - pieces playerPiece l.game.board = 1 := by
  obtain ⟨steps, l, hrun, hl⟩ := exists_run iteration newGame sampleGame
    (fun steps l => steps.length = 5 ∧ goesOn l = true ∧ l.game.turn = true) (by decide +kernel)
  obtain ⟨hlen, hgoes, hturn⟩ := of_decide_eq_true hl
  have hbalance := (turns_in_step (enter_newGame ⟨false, true, none⟩) (.inl rfl) hrun).1 hgoes
  rw [hturn] at hbalance
  exact ⟨steps, l, hrun, hlen, hgoes, hturn, hbalance⟩

end NeuralTicTacToe.Website
