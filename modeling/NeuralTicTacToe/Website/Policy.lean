import NeuralTicTacToe.Framework.Refinement
import NeuralTicTacToe.Net.LegalGames
import NeuralTicTacToe.Website.Abandoned
import NeuralTicTacToe.Website.Turns

/-!
# What the website plays

An observer watches the board of a game on the website.  Whatever others do to the files, and
whatever `rand()` returns, he sees the moves alternate, the player's being any and the AI's
best-rated by the net that was loaded (`Turn`).  And there is nothing else to know about the
program: whatever games can be played in that way, some run shows (`shown_iff`).

The net goes on rating histories as it did when it was loaded, however it grows during the game
(`OnPath`).
-/

namespace NeuralTicTacToe.Website

open NN Runs Refinement TicTacToe
open Console.TicTacToe (coords cellAt)

/-- A turn of a game, whose boards so far are `path`. -/
inductive Turn (rate : List (Board 3) → ℚ) (path : List (Board 3)) : List (Board 3) → Prop
  | ai {b : Board 3} :
      ¬ gameOver (lastBoard path) → path.length % 2 = 0 →
      BestRated rate aiPiece (lastBoard path) path b → Turn rate path (path ++ [b])
  | player {b : Board 3} :
      ¬ gameOver (lastBoard path) → path.length % 2 = 1 →
      Places playerPiece (lastBoard path) b → Turn rate path (path ++ [b])

/-! ## The observer -/

/-- What was seen so far, once the board is that of `l'`. -/
def saw (path : List (Board 3)) (l l' : Loop) : List (Board 3) :=
  if l'.game.board = l.game.board then path else path ++ [l'.game.board]

/-- What the loops show, the latest first. -/
def shownRev : List Loop → Loop → List (Board 3)
  | [], _ => []
  | l :: earlier, l' => saw (shownRev earlier l) l l'

/-- The boards of a run, a new one each time it has changed. -/
def shown (steps : List (Loop × Input)) (l : Loop) : List (Board 3) :=
  shownRev (steps.reverse.map Prod.fst) l

lemma shown_snoc (steps : List (Loop × Input)) (l l' : Loop) (i : Input) :
    shown (steps ++ [(l, i)]) l' = saw (shown steps l) l l' := by
  simp [shown, shownRev]

lemma lastBoard_shown {l₀ l : Loop} (h₀ : l₀.game.board = createMatrix 3)
    {steps : List (Loop × Input)} (hrun : Run iteration l₀ steps l) :
    lastBoard (shown steps l) = l.game.board := by
  induction hrun with
  | nil => exact h₀.symm
  | snoc _ _ ih =>
      rw [shown_snoc, saw]
      split
      · rename_i hboard
        rw [ih, hboard]
      · exact lastBoard_snoc _ _

/-! ## What is seen -/

/-- The game is in step, and its net is at the end of what was seen and rates histories as it did
at first. -/
structure OnPath (rate : List (Board 3) → ℚ) (path : List (Board 3)) (l : Loop) : Prop
    extends InStep l where
  rated : l.game.nn.RatedAt rate path

namespace OnPath

variable {rate : List (Board 3) → ℚ} {path : List (Board 3)} {l l' : Loop} {i : Input}

lemma board_eq (h : OnPath rate path l) : l.game.board = lastBoard path := by
  rw [← h.position.board_eq]
  exact h.rated.carries.board_eq h.playable.start_board

lemma length_eq (h : OnPath rate path l) : path.length % 2 = if l.game.turn then 1 else 0 := by
  obtain ⟨g, hg, hlen⟩ := h.position.carries
  rwa [h.rated.branching.history_unique h.rated.carries hg]

lemma piece_ne (h : OnPath rate path l) : l.game.nn.piece ≠ 0 := by
  rw [h.piece_eq]
  decide

lemma children (h : OnPath rate path l) (hturn : l.game.turn = false) :
    l.game.nn.children l.game.nn.ptr = [] ∨
      (∀ b, b ∈ (l.game.nn.children l.game.nn.ptr).map Prod.fst ↔
        Places aiPiece (l.game.nn.node l.game.nn.ptr).board b) ∧
      ∃ x ∈ l.game.nn.children l.game.nn.ptr, -100 ≤ x.2 := by
  refine h.playable.ai h.rated.carries ?_
  rw [h.length_eq, hturn]
  rfl

lemma noneOrAll (h : OnPath rate path l) (hturn : l.game.turn = false) : l.game.nn.NoneOrAll := by
  rcases h.children hturn with hnil | ⟨hall, _⟩
  · exact .inl (children_eq_nil_iff.1 hnil)
  · refine .inr (perm_successors h.piece_ne h.rated.distinct fun b => ?_)
    rw [← mem_map_children, hall, h.piece_eq]

lemma not_discouraged (h : OnPath rate path l) (hturn : l.game.turn = false) :
    ¬ l.game.nn.Discouraged := by
  rintro ⟨hne, hbelow⟩
  rcases h.children hturn with hnil | ⟨_, x, hx, hge⟩
  · exact hne (children_eq_nil_iff.1 hnil)
  · obtain ⟨c, hc, rfl⟩ := List.mem_map.1 hx
    exact absurd hge (not_le.2 (hbelow c hc))

/-- The AI can make any of the best-rated moves, and no other. -/
lemma exists_aiMove_iff (h : OnPath rate path l) (hover : ¬ gameOver l.game.board)
    (hturn : l.game.turn = false) (b : Board 3) :
    (∃ rands nn, l.game.nn.aiMove l.game.board (possibleMoves l.game.board) rands =
      some (nn, b)) ↔ BestRated rate aiPiece (lastBoard path) path b := by
  have hopen : openCells (l.game.nn.node l.game.nn.ptr).board ≠ [] := by
    rw [h.position.board_eq]
    exact (not_gameOver_iff.1 hover).2.2
  have hmove := h.rated.exists_aiMoveHere_iff h.piece_ne (h.noneOrAll hturn) hopen
    (h.not_discouraged hturn) b
  simpa only [aiMoveHere, h.position.board_eq, h.piece_eq, ← h.board_eq] using hmove

/-- An iteration leaves the board alone, and the net if the loop goes on, or takes a turn. -/
lemma idle_or_turn (h : OnPath rate path l) (hstep : iteration l i = some l') :
    l'.game.board = l.game.board ∧ (goesOn l' = true → l'.game.nn = l.game.nn) ∨
      l'.game.board ≠ l.game.board ∧ Turn rate path (path ++ [l'.game.board]) ∧
        l'.game.nn.RatedAt rate (path ++ [l'.game.board]) := by
  have hlen := h.length_eq
  obtain ⟨_, m, hbody, rfl⟩ := iteration_eq_some hstep
  cases body_effect hbody with
  | playerWins => exact .inl ⟨rfl, fun hgoes => by simp [goesOn, quitCheck] at hgoes⟩
  | aiWins => exact .inl ⟨rfl, fun hgoes => by simp [goesOn, quitCheck] at hgoes⟩
  | full => exact .inl ⟨rfl, fun _ => rfl⟩
  | idle => exact .inl ⟨rfl, fun _ => rfl⟩
  | @playersMove x _ _ _ hover hturn hx hmove =>
      have hplace : Places playerPiece l.game.board
          (Function.update l.game.board x playerPiece) := ⟨x, hx, rfl⟩
      refine .inr ⟨hplace.ne (by decide), .player ?_ ?_ ?_, h.rated.playerMove hmove⟩
      · rwa [← h.board_eq]
      · rw [hlen, hturn]
        rfl
      · rwa [← h.board_eq]
  | aiMove hover hturn hmove _ =>
      have hbest := (h.exists_aiMove_iff hover hturn _).1 ⟨_, _, hmove⟩
      have hplace := mem_successors_iff.1 hbest.1
      rw [← h.board_eq] at hplace
      have hstuck := not_stuck (not_gameOver_iff.1 hover).2.2 (h.not_discouraged hturn)
      refine .inr ⟨hplace.ne (by decide), .ai ?_ ?_ hbest, h.rated.aiMove h.piece_ne hstuck hmove⟩
      · rwa [← h.board_eq]
      · rw [hlen, hturn]
        rfl

/-- The game stays on what was seen, as long as the loop goes on. -/
lemma step (h : OnPath rate path l) (hstep : iteration l i = some l') (hgoes : goesOn l' = true) :
    OnPath rate (saw path l l') l' := by
  refine ⟨h.toInStep.step hstep hgoes, ?_⟩
  unfold saw
  rcases h.idle_or_turn hstep with ⟨hboard, hnn⟩ | ⟨hboard, _, hrated⟩
  · rw [if_pos hboard, hnn hgoes]
    exact h.rated
  · rw [if_neg hboard]
    exact hrated

lemma of_run {l₀ : Loop} (h₀ : OnPath rate [] l₀) {steps : List (Loop × Input)}
    (hrun : Run iteration l₀ steps l) (hgoes : goesOn l = true) :
    OnPath rate (shown steps l) l := by
  induction hrun with
  | nil => exact h₀
  | snoc _ hstep ih =>
      rw [shown_snoc]
      exact (ih (iteration_eq_some hstep).1).step hstep hgoes

end OnPath

/-! ## All of it is shown -/

/-- No one quits, and the player is not waited for. -/
def Prompt (l : Loop) (i : Input) : Prop :=
  i.atQuit = some false ∧ (l.game.turn = true → (l.files.edit i.atExists).player.isSome = true)

/-- The game is decided, or goes on without having waited for long. -/
def Lively (l : Loop) : Prop :=
  gameOver l.game.board ∨ goesOn l = true ∧ l.totalWait ≤ if l.game.turn then 500000 else 0

section Prompt

variable {l l' m : Loop} {i : Input}

/-- The body of the loop leaves a decided board alone. -/
lemma board_of_over (hbody : body l i = some m) (hover : gameOver l.game.board) :
    m.game.board = l.game.board := by
  cases body_effect hbody with
  | playerWins => rfl
  | aiWins => rfl
  | full => rfl
  | idle hnot => exact absurd hover hnot
  | playersMove hnot => exact absurd hover hnot
  | aiMove hnot => exact absurd hover hnot

/-- Between two turns the wait is at most that of the AI's turn. -/
lemma wait_le_of_prompt (hi : Prompt l i) (hover : ¬ gameOver l.game.board)
    (hwait : l.totalWait ≤ if l.game.turn then 500000 else 0) (hbody : body l i = some m) :
    m.success = true ∧ m.totalWait ≤ if m.game.turn then 500000 else 0 := by
  obtain ⟨hplayer, hai, hopen⟩ := not_gameOver_iff.1 hover
  cases hturn : l.game.turn with
  | true =>
      rw [body_of_player hplayer hai hturn] at hbody
      obtain ⟨⟨success, game, files⟩, hmove, rfl⟩ := Option.map_eq_some_iff.1 hbody
      rcases playersMove_eq_some hmove with ⟨_, _, _, hfull⟩ | ⟨rfl, _⟩
      · exact absurd hfull hopen
      · rw [if_pos (hi.2 hturn)]
        exact ⟨rfl, Nat.zero_le _⟩
  | false =>
      rw [hturn, if_neg Bool.false_ne_true] at hwait
      rw [body_of_ai hplayer hai hturn] at hbody
      obtain ⟨⟨success, game, files⟩, hmove, rfl⟩ := Option.map_eq_some_iff.1 hbody
      rcases aiMove1_eq_some hmove with ⟨_, _, _, hfull⟩ | ⟨rfl, _, nn, board, nn2, _, _, rfl, _⟩
      · exact absurd hfull hopen
      · simp only [changeTurn, hturn, Bool.not_false, if_true]
        exact ⟨trivial, by omega⟩

lemma Lively.step (h : Lively l) (hi : Prompt l i) (hstep : iteration l i = some l') :
    Lively l' := by
  obtain ⟨hgoes, m, hbody, rfl⟩ := iteration_eq_some hstep
  by_cases hover : gameOver l.game.board
  · refine .inl ?_
    show gameOver m.game.board
    rwa [board_of_over hbody hover]
  obtain ⟨hsuccess, hwait⟩ := wait_le_of_prompt hi hover (h.resolve_left hover).2 hbody
  have hstops : stops m i = false := by
    have hlt : m.totalWait < 300000000 := by
      split at hwait
      · omega
      · omega
    rw [stops, hi.1, Option.getD_some, Bool.false_or]
    exact decide_eq_false (not_le.2 hlt)
  obtain ⟨hnoPlayer, hnoAi, _, _⟩ := goesOn_iff.1 hgoes
  refine .inr ⟨goesOn_iff.2 ?_, hwait⟩
  cases body_effect hbody with
  | playerWins hwon => exact absurd (.inl hwon) hover
  | aiWins _ hwon => exact absurd (.inr (.inl hwon)) hover
  | full _ _ hfull => exact absurd (.inr (.inr hfull)) hover
  | idle => exact ⟨hnoPlayer, hnoAi, rfl, hstops⟩
  | playersMove => exact ⟨hnoPlayer, hnoAi, rfl, hstops⟩
  | aiMove => exact ⟨hnoPlayer, hnoAi, rfl, hstops⟩

lemma Lively.of_run {l₀ : Loop} (h₀ : Lively l₀) {steps : List (Loop × Input)}
    (hrun : Run iteration l₀ steps l) (hok : All Prompt steps) : Lively l :=
  hrun.invariant h₀ (fun _ _ _ hs hi hstep => hs.step hi hstep) hok

end Prompt

/-- The input of a player who writes the number of a cell. -/
def fills (x : Cell 3) : Input where
  atExists := some (some [toStringInt (3 * (x.1 : ℤ) + x.2)])
  atQuit := some false

lemma stoi_slot (x : Cell 3) :
    stoi (toStringInt (3 * (x.1 : ℤ) + x.2)) = some (3 * (x.1 : ℤ) + x.2) :=
  stoi_toStringInt ⟨by omega, by omega⟩

/-- An open cell can be filled by the player whose turn it is. -/
lemma exists_body_fills {l : Loop} (hover : ¬ gameOver l.game.board) (hturn : l.game.turn = true)
    {x : Cell 3} (hx : l.game.board x = 0) : ∃ m, body l (fills x) = some m ∧
      m.game.board = Function.update l.game.board x playerPiece := by
  obtain ⟨hplayer, hai, hopen⟩ := not_gameOver_iff.1 hover
  have hline : ((l.files.edit (fills x).atExists).edit none).player =
      some [toStringInt (3 * (x.1 : ℤ) + x.2)] := rfl
  have hread := @readMove_of_line (possibleMoves l.game.board) _ _ _ _ hline []
  rw [stoi_slot, Option.bind_some, (slot_cell _ x).2 rfl,
    if_pos (Console.any_coords_cell.2 hx)] at hread
  obtain ⟨nn, hmove⟩ := l.game.nn.exists_playerMove (Function.update l.game.board x playerPiece)
  have hbody := body_of_player hplayer hai hturn (fills x)
  rw [playersMove_of_open hopen, show (fills x).atReads = [none] from rfl, hread, Option.bind_some,
    afterRead, Console.cellAt_coords, Option.bind_some, hmove, Option.map_some,
    Option.map_some] at hbody
  exact ⟨_, hbody, rfl⟩

namespace OnPath

variable {rate : List (Board 3) → ℚ} {path path' : List (Board 3)} {l : Loop}

/-- Every turn can be taken next. -/
lemma offers (h : OnPath rate path l) (hl : Lively l) (hturn : Turn rate path path') :
    ∃ i l', Prompt l i ∧ iteration l i = some l' ∧ saw path l l' = path' := by
  have hlen := h.length_eq
  cases hturn with
  | @ai b hover heven hbest =>
      rw [← h.board_eq] at hover
      have hside : l.game.turn = false := by
        by_contra hplayer
        rw [if_pos (Bool.eq_true_of_not_eq_false hplayer)] at hlen
        omega
      obtain ⟨hplayer, hai, hopen⟩ := not_gameOver_iff.1 hover
      have hplace := mem_successors_iff.1 hbest.1
      rw [← h.board_eq] at hplace
      obtain ⟨rands, nn, hmove⟩ := (h.exists_aiMove_iff hover hside b).2 hbest
      obtain ⟨nn2, hfeed⟩ := l.game.nn2.exists_playerMove b
      have hbody := body_of_ai hplayer hai hside { rands := rands, atQuit := some false }
      rw [aiMove1_of_open hopen, hmove, Option.bind_some, hfeed, Option.map_some,
        Option.map_some] at hbody
      refine ⟨_, _, ⟨rfl, fun hp => ?_⟩, iteration_of_body (hl.resolve_left hover).1 hbody,
        if_neg (hplace.ne (by decide))⟩
      rw [hside] at hp
      cases hp
  | @player b hover hodd hplace =>
      rw [← h.board_eq] at hover hplace
      have hside : l.game.turn = true := by
        by_contra hai
        rw [if_neg hai] at hlen
        omega
      obtain ⟨x, hx, rfl⟩ := hplace
      obtain ⟨m, hbody, hboard⟩ := exists_body_fills hover hside hx
      refine ⟨_, _, ⟨rfl, fun _ => rfl⟩, iteration_of_body (hl.resolve_left hover).1 hbody, ?_⟩
      have hnext : (quitCheck m (fills x)).game.board =
          Function.update l.game.board x playerPiece := hboard
      have hplace : Places playerPiece l.game.board
          (Function.update l.game.board x playerPiece) := ⟨x, hx, rfl⟩
      rw [saw, hnext, if_neg (hplace.ne (by decide))]

end OnPath

lemma Turn.not_gameOver {rate : List (Board 3) → ℚ} {path path' : List (Board 3)}
    (h : Turn rate path path') : ¬ gameOver (lastBoard path) := by
  cases h with
  | ai hover => exact hover
  | player hover => exact hover

/-- The program implements the game. -/
lemma refines_turn {rate : List (Board 3) → ℚ} {l₀ : Loop} (h₀ : OnPath rate [] l₀)
    (hl₀ : Lively l₀) :
    Refines iteration l₀ (fun _ _ => True) Prompt shown (Turn rate) where
  ok_of_prompt _ := trivial
  shows {steps l i l'} hrun _ _ hstep := by
    have h := OnPath.of_run h₀ hrun (iteration_eq_some hstep).1
    rw [shown_snoc, saw]
    rcases h.idle_or_turn hstep with ⟨hboard, _⟩ | ⟨hboard, hturn, _⟩
    · exact .inl (if_pos hboard)
    · rw [if_neg hboard]
      exact .inr hturn
  offers {steps l path} hrun hok hturn := by
    have hl := hl₀.of_run hrun hok
    have hover : ¬ gameOver l.game.board := by
      rw [← lastBoard_shown h₀.board_eq hrun]
      exact hturn.not_gameOver
    have h := OnPath.of_run h₀ hrun (hl.resolve_left hover).1
    obtain ⟨i, l', hi, hstep, hsaw⟩ := h.offers hl hturn
    refine ⟨[(l, i)], l', Run.snoc .nil hstep, ?_, ?_⟩
    · simpa [All] using hi
    · rw [shown_snoc, hsaw]

/-- The loop is entered at the start of its net. -/
lemma onPath_enter {g : TicTacToe} {choice : ℤ} {db : File} {files : Files} {l₀ : Loop}
    (henter : enter g choice db files = some l₀) (hplay : l₀.game.nn.Playable)
    (hdistinct : l₀.game.nn.Distinct) : OnPath l₀.game.nn.rating [] l₀ := by
  refine ⟨.enter henter hplay, hplay.branching, hdistinct, rates_rating hdistinct, ?_⟩
  obtain ⟨nn, _, rfl⟩ := Option.map_eq_some_iff.1 henter
  exact .root

lemma lively_enter {g : TicTacToe} {choice : ℤ} {db : File} {files : Files} {l₀ : Loop}
    (henter : enter g choice db files = some l₀) : Lively l₀ := by
  obtain ⟨nn, _, rfl⟩ := Option.map_eq_some_iff.1 henter
  exact .inr ⟨rfl, Nat.zero_le _⟩

/-- What is shown is what can be played. -/
lemma OnPath.shown_iff {rate : List (Board 3) → ℚ} {l₀ : Loop} (h₀ : OnPath rate [] l₀)
    (hl₀ : Lively l₀) (path : List (Board 3)) :
    (∃ steps l, Run iteration l₀ steps l ∧ shown steps l = path) ↔
      Relation.ReflTransGen (Turn rate) [] path := by
  rw [← show shown [] l₀ = [] from rfl, ← (refines_turn h₀ hl₀).observed_iff]
  constructor
  · rintro ⟨steps, l, hrun, hshown⟩
    exact ⟨steps, l, hrun, fun _ _ => trivial, hshown⟩
  · rintro ⟨steps, l, hrun, _, hshown⟩
    exact ⟨steps, l, hrun, hshown⟩

/-- **The website plays by the ratings of its net**: the boards that runs of its loop show, under
every behaviour of the other processes and of `rand()`, are those of the games in which the AI makes
best-rated moves and the player any. -/
theorem shown_iff_played {g : TicTacToe} {choice : ℤ} {db : File} {files : Files} {l₀ : Loop}
    (henter : enter g choice db files = some l₀) (hplay : l₀.game.nn.Playable)
    (hdistinct : l₀.game.nn.Distinct) (path : List (Board 3)) :
    (∃ steps l, Run iteration l₀ steps l ∧ shown steps l = path) ↔
      Relation.ReflTransGen (Turn l₀.game.nn.rating) [] path :=
  (onPath_enter henter hplay hdistinct).shown_iff (lively_enter henter) path

/-! ## Legal games -/

/-- The AI's choice is one of the legal turns. -/
lemma Turn.legalTurn {rate : List (Board 3) → ℚ} {path path' : List (Board 3)}
    (h : Turn rate path path') : LegalTurn path path' := by
  cases h with
  | ai hover heven hbest =>
      refine ⟨hover, _, ?_, rfl⟩
      rw [sideAt, if_pos heven]
      exact mem_successors_iff.1 hbest.1
  | player hover hodd hplace =>
      refine ⟨hover, _, ?_, rfl⟩
      rwa [sideAt, if_neg (by omega)]

/-- What was shown so far is a legal game, and its last board is the current one. -/
lemma legalGame_of_run {g : TicTacToe} {choice : ℤ} {db : File} {files : Files} {l₀ l : Loop}
    (henter : enter g choice db files = some l₀) (hplay : l₀.game.nn.Playable)
    (hdistinct : l₀.game.nn.Distinct) {steps : List (Loop × Input)}
    (hrun : Run iteration l₀ steps l) :
    LegalGame (shown steps l) ∧ lastBoard (shown steps l) = l.game.board := by
  have h₀ := onPath_enter henter hplay hdistinct
  have hreach := (refines_turn h₀ (lively_enter henter)).reaches hrun fun _ _ => trivial
  exact ⟨Relation.ReflTransGen.mono (fun _ _ => Turn.legalTurn) _ _ hreach,
    lastBoard_shown h₀.board_eq hrun⟩

/-- **Every game on the website is a legal one** at every point: what was shown so far follows the
rules and ends with the current board, there are as many moves as filled cells, and at most one
side has won, with its last move. -/
theorem shown_legal {g : TicTacToe} {choice : ℤ} {db : File} {files : Files} {l₀ l : Loop}
    (henter : enter g choice db files = some l₀) (hplay : l₀.game.nn.Playable)
    (hdistinct : l₀.game.nn.Distinct) {steps : List (Loop × Input)}
    (hrun : Run iteration l₀ steps l) :
    LegalGame (shown steps l) ∧ lastBoard (shown steps l) = l.game.board ∧
    (openCells l.game.board).length + (shown steps l).length = 9 ∧
    (aiWon l.game.board = true → 5 ≤ (shown steps l).length ∧ (shown steps l).length % 2 = 1 ∧
      ¬ playerWon l.game.board = true) ∧
    (playerWon l.game.board = true → 6 ≤ (shown steps l).length ∧
      (shown steps l).length % 2 = 0 ∧ ¬ aiWon l.game.board = true) := by
  obtain ⟨hlegal, hboard⟩ := legalGame_of_run henter hplay hdistinct hrun
  have hspec := hlegal.spec
  rw [hboard] at hspec
  exact ⟨hlegal, hboard, hspec⟩

/-- A new net rates all moves alike. -/
lemma bestRated_freshWith_iff {piece piece' : Digit} {board b : Board 3} {g : List (Board 3)} :
    BestRated (freshWith piece' : NN ℤ).rating piece board g b ↔ b ∈ successors piece board := by
  have hrate : ∀ b, (freshWith piece' : NN ℤ).rating (g ++ [b]) = 0 := by
    intro b
    refine (rates_rating (trie_freshWith piece').distinct).rate_eq_zero fun p hp => ?_
    obtain ⟨a, _, hc, _⟩ := Histories.carries_snoc_iff.1 hp
    have hnil : ((freshWith piece' : NN ℤ).node a).next = [] := fresh_next a
    rw [hnil] at hc
    exact absurd hc List.not_mem_nil
  simp [BestRated, hrate]

/-- The board with the AI in the middle. -/
def middleTaken : Board 3 := Function.update (createMatrix 3) (1, 1) aiPiece

theorem shown_iff_played_sample : ∃ steps l, Run iteration newGame steps l ∧
    shown steps l = [middleTaken, Function.update middleTaken (0, 2) playerPiece] := by
  have hplay : newGame.game.nn.Playable := (Playable.fresh.setPiece aiPiece).resetPtr
  have hdistinct : newGame.game.nn.Distinct := (trie_freshWith aiPiece).distinct
  refine (shown_iff_played (enter_newGame ⟨false, true, none⟩) hplay hdistinct _).2 ?_
  have hbest : BestRated newGame.game.nn.rating aiPiece (createMatrix 3) [] middleTaken :=
    bestRated_freshWith_iff.2 (mem_successors_iff.2 ⟨(1, 1), rfl, rfl⟩)
  have hopen : ¬ gameOver middleTaken := by decide
  have hplace : Places playerPiece middleTaken (Function.update middleTaken (0, 2) playerPiece) :=
    ⟨(0, 2), by decide, rfl⟩
  have hai : Turn newGame.game.nn.rating [] ([] ++ [middleTaken]) := .ai (by decide) rfl hbest
  rw [← lastBoard_snoc [] middleTaken] at hopen hplace
  exact (Relation.ReflTransGen.single hai).tail (.player hopen rfl hplace)

theorem shown_legal_sample : ∃ steps l, Run iteration newGame steps l ∧ steps.length = 5 ∧
    LegalGame (shown steps l) ∧ (openCells l.game.board).length + (shown steps l).length = 9 := by
  have hplay : newGame.game.nn.Playable := (Playable.fresh.setPiece aiPiece).resetPtr
  have hdistinct : newGame.game.nn.Distinct := (trie_freshWith aiPiece).distinct
  obtain ⟨steps, l, hrun, hl⟩ := exists_run iteration newGame sampleGame
    (fun steps _ => steps.length = 5) (by decide +kernel)
  obtain ⟨hlegal, _, hcount, _⟩ :=
    shown_legal (enter_newGame ⟨false, true, none⟩) hplay hdistinct hrun
  exact ⟨steps, l, hrun, of_decide_eq_true hl, hlegal, hcount⟩

end NeuralTicTacToe.Website
