import NeuralTicTacToe.Website.Server

/-!
# The program and the website agree

The website is no part of this repository, but the steps it goes through are written down beside
the program: it polls for the file of the AI's move, and when it finds it, deletes it and shows the
move; then it lets the user make a move, writes it to the move file, and polls again; a user who
quits has the quit file written.  A website that keeps to these steps (`siteStep`) need not agree
with the program, for the steps leave three things open (`Habits`): what it does when the file of
the AI's move has been opened but not written yet, and with the moves that lie around from a game
that was killed, and whether the user can choose a cell that is taken.  If it waits for the move,
clears the files and offers empty cells only, it shows the program's board at any time, up to the
one move that is on its way, and this move is in the file it is expected in; and only then
(`boards_agree_iff`).
-/

namespace NeuralTicTacToe.Website

open NN Runs Territories
open Console.TicTacToe (coords cellAt)

/-! ## The website -/

/-- The number of a cell as text. -/
def slotText (x : Cell 3) : Text := toStringInt (3 * (x.1 : ℤ) + x.2)

/-- What the steps leave open. -/
structure Habits where
  /-- A file of the AI's move that is still empty is left alone. -/
  waits : Bool
  /-- No game is started while moves lie around in the user's files. -/
  clears : Bool
  /-- The user can choose a cell only if it is shown empty. -/
  offers : Bool

/-- A website that does all of it. -/
structure Habits.Careful (h : Habits) : Prop where
  waits : h.waits = true
  clears : h.clears = true
  offers : h.offers = true

/-- What the website does for a user, and the board it shows. -/
inductive Site
  /-- It waits for the AI's move. -/
  | polling (board : Board 3)
  /-- It has read the file of the AI's move, with or without a number, and is about to delete it. -/
  | taking (board : Board 3) (slot : Option ℤ)
  /-- It waits for the user's move. -/
  | choosing (board : Board 3)
  /-- It is about to open the move file. -/
  | opening (board : Board 3) (x : Cell 3)
  /-- It is about to write the move. -/
  | closing (board : Board 3) (x : Cell 3)

/-- The board that is shown. -/
def Site.board : Site → Board 3
  | .polling board | .taking board _ | .choosing board | .opening board _
  | .closing board _ => board

/-- The board with the AI's piece in a cell; nothing is shown for a slot that is none. -/
def shownMove (board : Board 3) (slot : Option ℤ) : Board 3 :=
  match slot.bind fun n => cellAt (n.tdiv 3, n.tmod 3) with
  | some x => Function.update board x aiPiece
  | none => board

/-- The website's next operation on the files of a user, who would choose the cell `x`.  The user's
move is shown when it has been written. -/
def siteStep (h : Habits) (x : Cell 3) (site : Site) (folder : Folder) : Site × Folder :=
  match site with
  | .polling board =>
    if folder.checkFileExists .aiMove then
      match readFromFile (folder .aiMove) with
      | [] => (if h.waits then .polling board else .taking board none, folder)
      | line :: _ => (.taking board (stoi line), folder)
    else (.polling board, folder)
  | .taking board slot => (.choosing (shownMove board slot), folder.remove .aiMove)
  | .choosing board =>
    (if h.offers = true ∧ board x ≠ 0 then .choosing board else .opening board x, folder)
  | .opening board x => (.closing board x, folder.openToWrite .playerMove)
  | .closing board x =>
    (.polling (Function.update board x playerPiece), folder.writeAndClose .playerMove [slotText x])

/-! ## Games -/

/-- What can happen to a user: a game is started, the program does its next operation or is killed,
the website does its next operation, or it writes the quit file. -/
inductive GameAction
  | start (choice : ℤ) (db : File)
  | operate (rands : List ℕ)
  | kill
  | site (x : Cell 3)
  | quit

/-- No move is in the files. -/
def noMoves (folder : Folder) : Bool :=
  (readFromFile (folder .aiMove)).isEmpty && (readFromFile (folder .playerMove)).isEmpty

/-- One step for a user.  The page polls from the start of a game on. -/
def gameStep (h : Habits) (s : Option Point × Site) (folder : Folder) :
    GameAction → Option ((Option Point × Site) × Folder)
  | .start choice db =>
    if isRunning s.1 || h.clears && !noMoves folder then none
    else some ((startPoint choice db, .polling (createMatrix 3)), folder)
  | .operate rands => s.1.map fun p =>
    (((operate rands p folder).1, s.2), (operate rands p folder).2)
  | .kill => some ((none, s.2), folder)
  | .site x => some ((s.1, (siteStep h x s.2 folder).1), (siteStep h x s.2 folder).2)
  | .quit => some (s, Function.update folder .quit (some []))

/-- The programs and the website's pages of all users, and the files. -/
abbrev Games := (ℤ → Option Point × Site) × (Text → Option Text)

/-- One step of a game of one of the users. -/
def gamesStep (h : Habits) : Games → ℤ × GameAction → Option Games :=
  together userFiles (gameStep h)

/-! ## Moves on their way -/

/-- The local variables of the program. -/
def Point.locals : Point → Locals
  | .loop v | .moveExists v | .readMove v | .removeMove v _ | .openAiMove v _ | .closeAiMove v _
  | .openBoard v | .closeBoard v | .quitExists v | .removeQuit v | .openGame v | .closeGame v
  | .ended v => v

/-- Where the last move is, with the program's board: nowhere, and the AI is to move (`false`), or
between the AI's move and the user's (`true`). -/
inductive Phase (folder : Folder) : Bool → Board 3 → Site → Prop
  | aiToMove {board : Board 3} :
      readFromFile (folder .aiMove) = [] → readFromFile (folder .playerMove) = [] →
      Phase folder false board (.polling board)
  | aiMoved {board : Board 3} {x : Cell 3} : board x = 0 →
      readFromFile (folder .aiMove) = [slotText x] → readFromFile (folder .playerMove) = [] →
      Phase folder true (Function.update board x aiPiece) (.polling board)
  | aiTaken {board : Board 3} {x : Cell 3} : board x = 0 →
      readFromFile (folder .aiMove) = [slotText x] → readFromFile (folder .playerMove) = [] →
      Phase folder true (Function.update board x aiPiece)
        (.taking board (some (3 * (x.1 : ℤ) + x.2)))
  | choosing {board : Board 3} :
      readFromFile (folder .aiMove) = [] → readFromFile (folder .playerMove) = [] →
      Phase folder true board (.choosing board)
  | opening {board : Board 3} {x : Cell 3} : board x = 0 →
      readFromFile (folder .aiMove) = [] → readFromFile (folder .playerMove) = [] →
      Phase folder true board (.opening board x)
  | closing {board : Board 3} {x : Cell 3} : board x = 0 →
      readFromFile (folder .aiMove) = [] → folder .playerMove = some [] →
      Phase folder true board (.closing board x)
  | userMoved {board : Board 3} {x : Cell 3} : board x = 0 →
      readFromFile (folder .aiMove) = [] → readFromFile (folder .playerMove) = [slotText x] →
      Phase folder true board (.polling (Function.update board x playerPiece))

/-- Whether the AI has moved and the user's move has not come yet, at the points where the turn has
been changed.  When there was no possible move it has been changed as well. -/
def Locals.awaits (v : Locals) : Bool := v.game.turn == v.success

/-- What the files hold, with the program at a point and the website in a state. -/
def InTouch (folder : Folder) (site : Site) : Point → Prop
  | .loop v | .quitExists v | .removeQuit v | .openGame v | .closeGame v | .ended v =>
    Phase folder v.awaits v.game.board site
  | .moveExists v | .readMove v => v.game.turn = true ∧ Phase folder true v.game.board site
  | .removeMove v rc => v.game.turn = true ∧ ∃ x, v.game.board x = 0 ∧ rc = coords (some x) ∧
    site = .polling (Function.update v.game.board x playerPiece) ∧
    readFromFile (folder .aiMove) = [] ∧ readFromFile (folder .playerMove) = [slotText x]
  | .openAiMove v newBoard => v.game.turn = false ∧ Phase folder false v.game.board site ∧
    ∃ x, v.game.board x = 0 ∧ newBoard = Function.update v.game.board x aiPiece
  | .closeAiMove v newBoard => v.game.turn = false ∧ Phase folder false v.game.board site ∧
    folder .aiMove = some [] ∧
    ∃ x, v.game.board x = 0 ∧ newBoard = Function.update v.game.board x aiPiece
  | .openBoard v | .closeBoard v => Phase folder (!v.game.turn) v.game.board site

/-! ## What other processes do -/

section Site

variable {folder folder' : Folder} {site : Site} {p : Point} {board : Board 3} {turn : Bool}
  {habits : Habits}

lemma Phase.congr (h : Phase folder turn board site) (hai : folder' .aiMove = folder .aiMove)
    (hplayer : folder' .playerMove = folder .playerMove) : Phase folder' turn board site := by
  cases h with
  | aiToMove ha hp => exact .aiToMove (hai ▸ ha) (hplayer ▸ hp)
  | aiMoved hx ha hp => exact .aiMoved hx (hai ▸ ha) (hplayer ▸ hp)
  | aiTaken hx ha hp => exact .aiTaken hx (hai ▸ ha) (hplayer ▸ hp)
  | choosing ha hp => exact .choosing (hai ▸ ha) (hplayer ▸ hp)
  | opening hx ha hp => exact .opening hx (hai ▸ ha) (hplayer ▸ hp)
  | closing hx ha hp => exact .closing hx (hai ▸ ha) (hplayer.trans hp)
  | userMoved hx ha hp => exact .userMoved hx (hai ▸ ha) (hplayer ▸ hp)

/-- Only the files of the moves matter. -/
lemma InTouch.congr (h : InTouch folder site p) (hai : folder' .aiMove = folder .aiMove)
    (hplayer : folder' .playerMove = folder .playerMove) : InTouch folder' site p := by
  cases p with
  | moveExists v => exact ⟨h.1, h.2.congr hai hplayer⟩
  | readMove v => exact ⟨h.1, h.2.congr hai hplayer⟩
  | removeMove v rc =>
      obtain ⟨hturn, x, hx, hrc, hsite, ha, hp⟩ := h
      exact ⟨hturn, x, hx, hrc, hsite, hai ▸ ha, hplayer ▸ hp⟩
  | openAiMove v newBoard => exact ⟨h.1, h.2.1.congr hai hplayer, h.2.2⟩
  | closeAiMove v newBoard =>
      exact ⟨h.1, h.2.1.congr hai hplayer, hai.trans h.2.2.1, h.2.2.2⟩
  | _ => exact Phase.congr h hai hplayer

lemma readFromFile_fileText {lines : List Text} (h : Lines lines) :
    readFromFile (some (fileText lines)) = lines := by
  rw [readFromFile, Option.map_some, split_fileText h, Option.getD_some]

/-- What is written to an open file is read. -/
lemma readFromFile_writeAndClose {file : UserFile} {lines : List Text}
    (hopen : folder file = some []) (h : Lines lines) :
    readFromFile (folder.writeAndClose file lines file) = lines := by
  rw [Folder.writeAndClose, Function.update_self, hopen]
  exact readFromFile_fileText h

/-- The program writes the number of the cell that the AI has filled. -/
lemma toStringInt_slotNum {x : Cell 3} (hx : board x = 0) :
    toStringInt (slotNum board (Function.update board x aiPiece)) = slotText x := by
  rw [slotNum_update hx (show aiPiece ≠ 0 by decide), slotText]
  push_cast
  rfl

section

variable (hcareful : habits.Careful)
include hcareful

/-- While nothing is read a website that waits polls. -/
lemma siteStep_polling (x : Cell 3) (h : readFromFile (folder .aiMove) = []) :
    siteStep habits x (.polling board) folder = (.polling board, folder) := by
  unfold siteStep
  dsimp only
  rw [h, hcareful.waits]
  split
  · rfl
  · rfl

/-- The website's operations move a move along. -/
lemma Phase.step_site (h : Phase folder turn board site) (x : Cell 3) :
    Phase (siteStep habits x site folder).2 turn board (siteStep habits x site folder).1 := by
  cases h with
  | aiToMove ha hp =>
      rw [siteStep_polling hcareful x ha]
      exact .aiToMove ha hp
  | @aiMoved board y hy ha hp =>
      have hexists : folder.checkFileExists .aiMove = true := by
        cases hfile : folder .aiMove with
        | none => simp [hfile, readFromFile] at ha
        | some text => simp [Folder.checkFileExists, hfile]
      have hstep : siteStep habits x (.polling board) folder =
          (.taking board (some (3 * (y.1 : ℤ) + y.2)), folder) := by
        unfold siteStep
        dsimp only
        rw [if_pos hexists, ha]
        dsimp only
        rw [slotText, stoi_slot]
      rw [hstep]
      exact .aiTaken hy ha hp
  | @aiTaken board y hy ha hp =>
      have hstep : siteStep habits x (.taking board (some (3 * (y.1 : ℤ) + y.2))) folder =
          (.choosing (Function.update board y aiPiece), folder.remove .aiMove) := by
        unfold siteStep shownMove
        dsimp only
        rw [Option.bind_some, (slot_cell _ y).2 rfl, Console.cellAt_coords]
      rw [hstep]
      exact .choosing rfl hp
  | choosing ha hp =>
      unfold siteStep
      dsimp only
      split
      · exact .choosing ha hp
      · rename_i hx
        exact .opening (not_not.1 fun hne => hx ⟨hcareful.offers, hne⟩) ha hp
  | opening hy ha hp => exact .closing hy ha rfl
  | closing hy ha hp => exact .userMoved hy ha (readFromFile_writeAndClose hp (lines_toStringInt _))
  | userMoved hy ha hp =>
      rw [siteStep_polling hcareful x ha]
      exact .userMoved hy ha hp

lemma InTouch.step_site (h : InTouch folder site p) (x : Cell 3) :
    InTouch (siteStep habits x site folder).2 (siteStep habits x site folder).1 p := by
  cases p with
  | moveExists v => exact ⟨h.1, h.2.step_site hcareful x⟩
  | readMove v => exact ⟨h.1, h.2.step_site hcareful x⟩
  | removeMove v rc =>
      obtain ⟨hturn, y, hy, hrc, rfl, ha, hp⟩ := h
      rw [siteStep_polling hcareful x ha]
      exact ⟨hturn, y, hy, hrc, rfl, ha, hp⟩
  | openAiMove v newBoard =>
      obtain ⟨hturn, hphase, hmove⟩ := h
      cases hphase with
      | aiToMove ha hp =>
          rw [siteStep_polling hcareful x ha]
          exact ⟨hturn, .aiToMove ha hp, hmove⟩
  | closeAiMove v newBoard =>
      obtain ⟨hturn, hphase, hopen, hmove⟩ := h
      cases hphase with
      | aiToMove ha hp =>
          rw [siteStep_polling hcareful x ha]
          exact ⟨hturn, .aiToMove ha hp, hopen, hmove⟩
  | _ => exact Phase.step_site hcareful h x

end

/-- The website's operations are such as the program expects of other processes. -/
lemma exists_foreign (habits : Habits) (x : Cell 3) (site : Site) (folder : Folder) :
    (siteStep habits x site folder).2 = folder ∨
      ∃ op : Foreign, (siteStep habits x site folder).2 = op.apply folder := by
  cases site with
  | polling board =>
      unfold siteStep
      dsimp only
      split
      · split
        · exact .inl rfl
        · exact .inl rfl
      · exact .inl rfl
  | taking board slot => exact .inr ⟨.takeAiMove, rfl⟩
  | choosing board => exact .inl rfl
  | opening board y => exact .inr ⟨.playerMove (some []), rfl⟩
  | closing board y => exact .inr ⟨.playerMove _, rfl⟩

end Site

/-! ## What the program does -/

section Program

variable {choice : ℤ} {db : File} {folder folder' : Folder} {site : Site} {p p' : Point}
  {v : Locals} {rands : List ℕ}

/-- The AI fills an empty cell. -/
lemma Serves.places (h : Serves choice db folder (.loop v)) (hnet : LegalNet choice db)
    (hgoes : v.goesOn = true) (hturn : v.game.turn = false) (hopen : openCells v.game.board ≠ [])
    {nn : NN ℤ} {newBoard : Board 3}
    (hmove : v.game.nn.aiMove v.game.board (possibleMoves v.game.board) rands =
      some (nn, newBoard)) : Places aiPiece v.game.board newBoard := by
  obtain ⟨files, l₀, steps, l, henter, hrun, htracks⟩ := h
  cases htracks with
  | loop _ =>
      rw [enter_files] at henter
      obtain ⟨l₁, hl₁, rfl⟩ := Option.map_eq_some_iff.1 henter
      obtain ⟨hplay, hdistinct⟩ := hnet l₁ hl₁
      have h₀ := onPath_enter ((enter_files _ _ _ _).trans henter) hplay hdistinct
      have hl := OnPath.of_run h₀ hrun hgoes
      have hpos := hl.position
      rw [show l.game.turn = false from hturn] at hpos
      exact (hpos.aiMove hl.playable hl.piece_eq hopen hmove).2.2.2.1

/-- The quit check does not matter. -/
lemma phase_quitCheck (h : Phase folder v.awaits v.game.board site) (quits : Bool) :
    Phase folder (v.quitCheck quits).awaits (v.quitCheck quits).game.board site := by
  unfold Locals.quitCheck
  split
  · exact h
  · exact h

/-- `AIMove` up to its first operation. -/
lemma inTouch_aiMove {w : Locals} (hturn : w.game.turn = false)
    (h : Phase folder false w.game.board site)
    (hplaces : w.game.turn = false → openCells w.game.board ≠ [] → ∀ nn newBoard,
      w.game.nn.aiMove w.game.board (possibleMoves w.game.board) rands = some (nn, newBoard) →
        Places aiPiece w.game.board newBoard)
    (hp : w.aiMove rands = some p) : InTouch folder site p := by
  by_cases hfull : openCells w.game.board = []
  · rw [Locals.aiMove_of_full hfull] at hp
    obtain rfl := Option.some.inj hp
    have hawaits : (w.moved false).awaits = false := by
      simp [Locals.awaits, Locals.moved, TicTacToe.changeTurn, hturn]
    rw [InTouch, hawaits]
    exact h
  · rw [Locals.aiMove_of_open hfull] at hp
    obtain ⟨⟨nn, newBoard⟩, hmove, hp⟩ := Option.bind_eq_some_iff.1 hp
    obtain ⟨nn2, _, rfl⟩ := Option.map_eq_some_iff.1 hp
    exact ⟨hturn, h, hplaces hturn hfull nn newBoard hmove⟩

/-- The body of the loop up to its first operation. -/
lemma inTouch_body (hgoes : v.goesOn = true) (h : Phase folder v.awaits v.game.board site)
    (hplaces : v.game.turn = false → openCells v.game.board ≠ [] → ∀ nn newBoard,
      v.game.nn.aiMove v.game.board (possibleMoves v.game.board) rands = some (nn, newBoard) →
        Places aiPiece v.game.board newBoard)
    (hp : v.body rands = some p) : InTouch folder site p := by
  have hsuccess : v.success = true := by
    simp only [Locals.goesOn, Bool.and_eq_true] at hgoes
    exact hgoes.1.2
  have hawaits : v.awaits = v.game.turn := by
    rw [Locals.awaits, hsuccess]
    cases v.game.turn
    · rfl
    · rfl
  unfold Locals.body at hp
  split at hp
  · obtain ⟨nn, _, hp⟩ := Option.bind_eq_some_iff.1 hp
    obtain rfl := Option.some.inj hp
    exact h
  split at hp
  · obtain ⟨nn, _, hp⟩ := Option.bind_eq_some_iff.1 hp
    obtain rfl := Option.some.inj hp
    exact h
  dsimp only at hp
  rw [hawaits] at h
  split at hp
  · rename_i hturn
    obtain rfl := Option.some.inj hp
    rw [hturn] at h
    exact ⟨hturn, h⟩
  · rename_i hturn
    rw [Bool.not_eq_true] at hturn
    rw [hturn] at h
    exact inTouch_aiMove (w := { v with totalWait := v.totalWait + 500000 }) hturn h hplaces hp

/-- Other operations than the last one on the move file leave the moves alone. -/
lemma inTouch_playersMove (hturn : v.game.turn = true) (h : Phase folder true v.game.board site) :
    InTouch folder site v.playersMove := by
  by_cases hfull : openCells v.game.board = []
  · rw [Locals.playersMove_of_full hfull]
    have hawaits : (v.moved false).awaits = true := by
      simp [Locals.awaits, Locals.moved, TicTacToe.changeTurn, hturn]
    rw [InTouch, hawaits]
    exact h
  · rw [Locals.playersMove_of_open hfull]
    exact ⟨hturn, h⟩

/-- What is read from the move file is the user's last move. -/
lemma Phase.of_read {board : Board 3} {line : Text} {lines : List Text}
    (h : Phase folder true board site) (hread : readFromFile (folder .playerMove) = line :: lines) :
    ∃ x, board x = 0 ∧ site = .polling (Function.update board x playerPiece) ∧
      line = slotText x ∧ readFromFile (folder .aiMove) = [] ∧
      readFromFile (folder .playerMove) = [slotText x] := by
  cases h with
  | aiMoved _ _ hempty => simp [hempty] at hread
  | aiTaken _ _ hempty => simp [hempty] at hread
  | choosing _ hempty => simp [hempty] at hread
  | opening _ _ hempty => simp [hempty] at hread
  | closing _ _ hempty => simp [hempty, readFromFile, split] at hread
  | @userMoved _ x hx ha hmove =>
      exact ⟨x, hx, rfl, (List.cons.inj (hread.symm.trans hmove)).1, ha, hmove⟩

/-- Reading the move file. -/
lemma inTouch_readMove (hturn : v.game.turn = true) (h : Phase folder true v.game.board site)
    (hp : (operate rands (.readMove v) folder).1 = some p) : InTouch folder site p := by
  unfold operate at hp
  dsimp only at hp
  split at hp
  · obtain rfl := Option.some.inj hp
    have hawaits : ({ v with game := v.game.changeTurn }.moved true : Locals).awaits = true := by
      simp [Locals.awaits, Locals.moved, TicTacToe.changeTurn, hturn]
    rw [InTouch, hawaits]
    exact h
  · rename_i line lines hread
    obtain ⟨slot, hslot, rfl⟩ := Option.map_eq_some_iff.1 hp
    obtain ⟨x, hx, rfl, rfl, ha, hmove⟩ := h.of_read hread
    rw [slotText, stoi_slot] at hslot
    obtain rfl := Option.some.inj hslot
    exact ⟨hturn, x, hx, (slot_cell _ x).2 rfl, rfl, ha, hmove⟩

/-- **An operation of the program moves a move along.** -/
theorem InTouch.operate (h : InTouch folder site p) (hserves : Serves choice db folder p)
    (hnet : LegalNet choice db) (hp : Website.operate rands p folder = (some p', folder')) :
    InTouch folder' site p' := by
  have hpoint : (Website.operate rands p folder).1 = some p' := congrArg Prod.fst hp
  obtain rfl : (Website.operate rands p folder).2 = folder' := congrArg Prod.snd hp
  cases p with
  | loop v =>
      by_cases hgoes : v.goesOn = true
      · refine inTouch_body hgoes h (fun hturn hopen nn newBoard hmove => ?_)
          ((if_pos hgoes).symm.trans hpoint)
        exact hserves.places hnet hgoes hturn hopen hmove
      · have hfinish : v.finish = some p' := (if_neg hgoes).symm.trans hpoint
        unfold Locals.finish at hfinish
        split at hfinish
        · obtain rfl := Option.some.inj hfinish
          exact h
        · obtain ⟨nn, _, hfinish⟩ := Option.bind_eq_some_iff.1 hfinish
          obtain rfl := Option.some.inj hfinish
          exact h
  | moveExists v =>
      obtain rfl := Option.some.inj hpoint
      split
      · exact inTouch_playersMove h.1 h.2
      · exact inTouch_playersMove h.1 h.2
  | readMove v =>
      rw [operate_readMove_snd]
      exact inTouch_readMove h.1 h.2 hpoint
  | removeMove v rc =>
      obtain ⟨hturn, x, hx, rfl, rfl, ha, -⟩ := h
      have hplace : v.place (coords (some x)) = some p' :=
        (if_pos (Console.any_coords_cell.2 hx)).symm.trans hpoint
      unfold Locals.place at hplace
      rw [Console.cellAt_coords] at hplace
      obtain ⟨y, hy, hplace⟩ := Option.bind_eq_some_iff.1 hplace
      obtain rfl := Option.some.inj hy
      obtain ⟨nn, _, hplace⟩ := Option.bind_eq_some_iff.1 hplace
      obtain rfl := Option.some.inj hplace
      rw [InTouch, hturn]
      exact .aiToMove ha rfl
  | openAiMove v newBoard =>
      obtain rfl := Option.some.inj hpoint
      obtain ⟨hturn, hphase, hmove⟩ := h
      cases hphase with
      | aiToMove _ hempty => exact ⟨hturn, .aiToMove rfl hempty, rfl, hmove⟩
  | closeAiMove v newBoard =>
      obtain rfl := Option.some.inj hpoint
      obtain ⟨hturn, hphase, hopen, x, hx, rfl⟩ := h
      cases hphase with
      | aiToMove _ hempty =>
          have hread : readFromFile ((Website.operate rands (.closeAiMove v
              (Function.update v.game.board x aiPiece)) folder).2 .aiMove) = _ :=
            readFromFile_writeAndClose hopen (lines_toStringInt _)
          rw [toStringInt_slotNum hx] at hread
          rw [InTouch, hturn]
          exact .aiMoved hx hread hempty
  | openBoard v =>
      obtain rfl := Option.some.inj hpoint
      exact Phase.congr h rfl rfl
  | closeBoard v =>
      obtain rfl := Option.some.inj hpoint
      have hawaits : (v.moved true).awaits = !v.game.turn := by
        simp [Locals.awaits, Locals.moved, TicTacToe.changeTurn]
      rw [InTouch, hawaits]
      exact Phase.congr h rfl rfl
  | quitExists v =>
      obtain rfl := Option.some.inj hpoint
      split
      · exact h
      · exact phase_quitCheck h false
  | removeQuit v =>
      obtain rfl := Option.some.inj hpoint
      exact (phase_quitCheck h true).congr rfl rfl
  | openGame v =>
      obtain rfl := Option.some.inj hpoint
      exact Phase.congr h rfl rfl
  | closeGame v =>
      obtain rfl := Option.some.inj hpoint
      exact Phase.congr h rfl rfl
  | ended v =>
      obtain rfl := Option.some.inj hpoint
      exact h

end Program

/-! ## All users -/

/-- Starting a game. -/
lemma gameStep_start {habits : Habits} {s : Option Point × Site} {folder : Folder} {choice : ℤ}
    {db : File} {x : (Option Point × Site) × Folder}
    (h : gameStep habits s folder (.start choice db) = some x) :
    isRunning s.1 = false ∧ (habits.clears = true → noMoves folder = true) ∧
      x = ((startPoint choice db, .polling (createMatrix 3)), folder) := by
  unfold gameStep at h
  dsimp only at h
  split at h
  · cases h
  · rename_i hnone
    simp only [Bool.or_eq_true, Bool.and_eq_true, Bool.not_eq_true', not_or, not_and,
      Bool.not_eq_false] at hnone
    exact ⟨Bool.eq_false_iff.2 hnone.1, hnone.2, (Option.some.inj h).symm⟩

lemma noMoves_iff {folder : Folder} : noMoves folder = true ↔
    readFromFile (folder .aiMove) = [] ∧ readFromFile (folder .playerMove) = [] := by
  simp [noMoves]

/-- A program that runs serves its user with a net it can play with, and is in touch with the
website. -/
def InPlay (x : (Option Point × Site) × Folder) : Prop :=
  ∀ p, x.1.1 = some p → InTouch x.2 x.1.2 p ∧
    ∃ choice db, LegalNet choice db ∧ Serves choice db x.2 p

section Careful

variable {habits : Habits} (hcareful : habits.Careful)
include hcareful

lemma inPlay_step {x x' : (Option Point × Site) × Folder} {a : GameAction} (hx : InPlay x)
    (hnet : ∀ choice db, a = .start choice db → LegalNet choice db)
    (hstep : gameStep habits x.1 x.2 a = some x') : InPlay x' := by
  obtain ⟨⟨point, site⟩, folder⟩ := x
  intro p' hp'
  cases a with
  | start choice db =>
      obtain ⟨-, hno, rfl⟩ := gameStep_start hstep
      obtain ⟨hai, hplayer⟩ := noMoves_iff.1 (hno hcareful.clears)
      obtain ⟨l, hl, rfl⟩ := Option.map_eq_some_iff.1 hp'
      refine ⟨?_, choice, db, hnet choice db rfl, .start hl folder⟩
      obtain ⟨nn, _, rfl⟩ := Option.map_eq_some_iff.1 hl
      exact .aiToMove hai hplayer
  | operate rands =>
      obtain ⟨p, rfl, rfl⟩ := Option.map_eq_some_iff.1 hstep
      obtain ⟨hin, choice, db, hnet, hserves⟩ := hx p rfl
      have hop : operate rands p folder = (some p', (operate rands p folder).2) := by
        rw [← hp']
      exact ⟨hin.operate hserves hnet hop, choice, db, hnet, hserves.operate hop⟩
  | kill =>
      obtain rfl := Option.some.inj hstep
      cases hp'
  | site x =>
      obtain rfl := Option.some.inj hstep
      obtain ⟨hin, choice, db, hnet, hserves⟩ := hx p' hp'
      refine ⟨hin.step_site hcareful x, choice, db, hnet, ?_⟩
      rcases exists_foreign habits x site folder with hsame | ⟨op, hop⟩
      · rwa [hsame]
      · rw [hop]
        exact hserves.foreign op
  | quit =>
      obtain rfl := Option.some.inj hstep
      obtain ⟨hin, choice, db, hnet, hserves⟩ := hx p' hp'
      exact ⟨hin.congr rfl rfl, choice, db, hnet, hserves.foreign (.quit (some []))⟩

/-- A game that runs is in touch with the website. -/
lemma inPlay_of_run {s₀ s : Games} {steps : List (Games × (ℤ × GameAction))} {u : ℤ}
    (hidle : (s₀.1 u).1 = none) (hrun : Run (gamesStep habits) s₀ steps s)
    (hnets : ∀ t u choice db, (t, (u, GameAction.start choice db)) ∈ steps → LegalNet choice db) :
    InPlay (seen userFiles u s) := by
  refine @Run.invariant _ _ (alone (gameStep habits)) _
    (fun _ a => ∀ choice db, a = GameAction.start choice db → LegalNet choice db) InPlay
    (fun p hp => absurd (hidle.symm.trans hp) (by simp))
    (fun _ _ _ hx hnet hstep => inPlay_step hcareful hx hnet hstep) _ _ (Run.alone hrun u) ?_
  intro x hx choice db hstart
  obtain ⟨t, ht, -⟩ := mem_own.1 hx
  exact hnets t u choice db (hstart ▸ ht)

end Careful

/-- The two boards are equal, or differ in one move, which is the one line of the file it is sent
in. -/
def Agree (folder : Folder) (board shown : Board 3) : Prop :=
  board = shown ∨
  (∃ x, shown x = 0 ∧ board = Function.update shown x aiPiece ∧
    readFromFile (folder .aiMove) = [slotText x]) ∨
  ∃ x, board x = 0 ∧ shown = Function.update board x playerPiece ∧
    readFromFile (folder .playerMove) = [slotText x]

lemma Phase.agree {folder : Folder} {turn : Bool} {board : Board 3} {site : Site}
    (h : Phase folder turn board site) : Agree folder board site.board := by
  cases h with
  | aiToMove => exact .inl rfl
  | aiMoved hx ha => exact .inr (.inl ⟨_, hx, rfl, ha⟩)
  | aiTaken hx ha => exact .inr (.inl ⟨_, hx, rfl, ha⟩)
  | choosing => exact .inl rfl
  | opening => exact .inl rfl
  | closing => exact .inl rfl
  | userMoved hx _ hp => exact .inr (.inr ⟨_, hx, rfl, hp⟩)

lemma InTouch.agree {folder : Folder} {site : Site} {p : Point} (h : InTouch folder site p) :
    Agree folder p.locals.game.board site.board := by
  cases p with
  | moveExists v => exact h.2.agree
  | readMove v => exact h.2.agree
  | removeMove v rc =>
      obtain ⟨-, x, hx, -, rfl, -, hp⟩ := h
      exact .inr (.inr ⟨x, hx, rfl, hp⟩)
  | openAiMove v newBoard => exact h.2.1.agree
  | closeAiMove v newBoard => exact h.2.1.agree
  | _ => exact Phase.agree h

instance (folder : Folder) (board shown : Board 3) : Decidable (Agree folder board shown) :=
  inferInstanceAs (Decidable (_ ∨ _ ∨ _))

/-- The website shows the program's board up to a move that is on its way and is alone in its file,
and a move that the program has read from the move file is on an empty cell. -/
def Agreement (folder : Folder) (site : Site) (p : Point) : Prop :=
  Agree folder p.locals.game.board site.board ∧
    ∀ v rc, p = .removeMove v rc → ∃ x, v.game.board x = 0 ∧ rc = coords (some x)

lemma InTouch.agreement {folder : Folder} {site : Site} {p : Point} (h : InTouch folder site p) :
    Agreement folder site p := by
  refine ⟨h.agree, ?_⟩
  rintro v rc rfl
  obtain ⟨-, x, hx, hrc, -⟩ := h
  exact ⟨x, hx, hrc⟩

/-- In every interleaving of the operations of all programs and websites, the programs that run and
the websites agree, if all nets that are loaded can be played with. -/
def Agrees (habits : Habits) : Prop :=
  ∀ (s₀ s : Games) (steps : List (Games × (ℤ × GameAction))), (∀ u, (s₀.1 u).1 = none) →
    Run (gamesStep habits) s₀ steps s →
    (∀ t u choice db, (t, (u, GameAction.start choice db)) ∈ steps → LegalNet choice db) →
    ∀ u p, (s.1 u).1 = some p → Agreement (fun file => s.2 (path u file)) (s.1 u).2 p

/-- Games are started with new nets. -/
def GameAction.new : GameAction → Bool
  | .start choice _ => choice = 1
  | _ => true

lemma legalNet_of_new {steps : List (Games × (ℤ × GameAction))}
    (hnew : ∀ x ∈ steps, x.2.2.new = true) {t : Games} {u : ℤ} {choice : ℤ} {db : File}
    (hstart : (t, (u, GameAction.start choice db)) ∈ steps) : LegalNet choice db := by
  obtain rfl : choice = 1 := of_decide_eq_true (hnew _ hstart)
  exact legalNet_new db

/-- Nobody plays, and there are no files. -/
def noGames : Games := (fun _ => (none, .polling (createMatrix 3)), fun _ => none)

/-- The website of the user `1` shows another board, and no move is on its way. -/
def disagree (s : Games) : Bool :=
  (s.1 1).1.any fun p =>
    ¬ Agree (fun file => s.2 (path 1 file)) p.locals.game.board (s.1 1).2.board

/-- These actions can happen, and lead to a disagreement. -/
def leadApart (actions : List (ℤ × GameAction)) (habits : Habits) : Bool :=
  (exec (gamesStep habits) noGames actions).any fun r => disagree r.2

lemma not_agrees {actions : List (ℤ × GameAction)} (hnew : ∀ a ∈ actions, a.2.new = true)
    {habits : Habits} (hapart : leadApart actions habits = true) : ¬ Agrees habits := by
  intro hall
  obtain ⟨steps, s, hrun, hok, hs⟩ := exists_run_all (gamesStep habits) noGames actions
    (fun a ha _ => hnew a ha) (fun _ s => disagree s) hapart
  obtain ⟨p, hp, hboards⟩ := (Option.any_eq_true _ _).1 hs
  have hagree := hall noGames s steps (fun _ => rfl) hrun (fun _ _ _ _ => legalNet_of_new hok)
    1 p hp
  exact of_decide_eq_true hboards hagree.1

/-- The website looks when the file of the AI's move has been opened and not been written. -/
def earlyLook : List (ℤ × GameAction) :=
  [(1, .start 1 ⟨false, true, none⟩), (1, .operate [4]), (1, .operate []), (1, .site (0, 0)),
    (1, .operate []), (1, .site (0, 0))]

/-- The program is killed when the AI has moved, and is started again. -/
def secondStart : List (ℤ × GameAction) :=
  [(1, .start 1 ⟨false, true, none⟩), (1, .operate [4]), (1, .operate []), (1, .operate []),
    (1, .kill), (1, .start 1 ⟨false, true, none⟩), (1, .site (0, 0)), (1, .site (0, 0))]

/-- The user chooses the cell that the AI has taken. -/
def takenCell : List (ℤ × GameAction) :=
  [(1, .start 1 ⟨false, true, none⟩), (1, .operate [4]), (1, .operate []), (1, .operate []),
    (1, .site (0, 0)), (1, .site (0, 0)), (1, .site (1, 1)), (1, .site (1, 1)), (1, .site (1, 1))]

/-- **The program and the website agree if and only if** the website waits for the AI's move to be
written, starts no game over the moves of an older one, and lets the user choose empty cells
only. -/
theorem boards_agree_iff (habits : Habits) : Agrees habits ↔ habits.Careful := by
  constructor
  · intro hall
    obtain ⟨waits, clears, offers⟩ := habits
    refine ⟨?_, ?_, ?_⟩
    · by_contra hwaits
      obtain rfl : waits = false := Bool.eq_false_iff.2 hwaits
      have hapart : ∀ clears offers, leadApart earlyLook ⟨false, clears, offers⟩ = true := by
        decide +kernel
      exact not_agrees (by decide) (hapart clears offers) hall
    · by_contra hclears
      obtain rfl : clears = false := Bool.eq_false_iff.2 hclears
      have hapart : ∀ waits offers, leadApart secondStart ⟨waits, false, offers⟩ = true := by
        decide +kernel
      exact not_agrees (by decide) (hapart waits offers) hall
    · by_contra hoffers
      obtain rfl : offers = false := Bool.eq_false_iff.2 hoffers
      have hapart : ∀ waits clears, leadApart takenCell ⟨waits, clears, false⟩ = true := by
        decide +kernel
      exact not_agrees (by decide) (hapart waits clears) hall
  · intro hcareful s₀ s steps hidle hrun hnets u p hp
    have hplay := inPlay_of_run hcareful (hidle u) hrun fun t u => hnets t u
    exact (hplay p hp).1.agreement

end NeuralTicTacToe.Website
