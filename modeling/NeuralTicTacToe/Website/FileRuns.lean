import NeuralTicTacToe.Website.Folders

/-!
# Iterations are atomic

Whatever operations of other processes come between two operations of the program, the program
does what some iteration of its loop does, with the files edited before it looks at them: an
operation of the program goes on in the iteration that is under way or ends it
(`Tracks.operate`), and the others keep the iteration where it is (`Tracks.foreign`).
-/

namespace NeuralTicTacToe.Website

open Runs TicTacToe
open Console.TicTacToe (coords cellAt)

/-! ## Between two operations -/

/-- An iteration from `l` on has come to a read of the move file, after some edits: the iteration
goes on as if these edits had been made already. -/
structure Reading (l : Loop) (v : Locals) (e : Edit) (es : List Edit) (files : Files) : Prop where
  goes : goesOn l = true
  undecided : ¬ gameOver l.game.board
  turn : l.game.turn = true
  locals : v = { l.locals with
    totalWait := if (l.files.edit e).player.isSome then 0 else l.totalWait + 500000 }
  reads : ∀ more, readMove (possibleMoves l.game.board) (es ++ more) (l.files.edit e) =
    readMove (possibleMoves l.game.board) more files
  files_eq : ∃ player, files = { l.files with player := player }

/-- The body of the loop comes from `l` to `m`, whose local variables are `v`. -/
def Decides (l m : Loop) (v : Locals) : Prop :=
  goesOn l = true ∧ (∃ i, body l i = some m) ∧ m.locals = v

/-- The iteration that is under way began at `l`. -/
inductive Tracks (l : Loop) (folder : Folder) : Point → Prop
  | loop : OnDisk folder l.files → Tracks l folder (.loop l.locals)
  | moveExists : goesOn l = true → ¬ playerWon l.game.board = true → ¬ aiWon l.game.board = true →
      l.game.turn = true → OnDisk folder l.files →
      Tracks l folder (.moveExists { l.locals with totalWait := l.totalWait + 500000 })
  | readMove {v : Locals} {e : Edit} {es : List Edit} {files : Files} :
      Reading l v e es files → OnDisk folder l.files → Tracks l folder (.readMove v)
  | removeMove {v : Locals} {e e' : Edit} {es : List Edit} {files : Files} {line : Text}
      {lines : List Text} {slot : ℤ} :
      Reading l v e es files → (files.edit e').player = some (line :: lines) →
      stoi line = some slot → OnDisk folder l.files →
      Tracks l folder (.removeMove v (slot.tdiv 3, slot.tmod 3))
  | openAiMove {v : Locals} {newBoard : Board 3} {m : Loop} :
      Decides l m ({ v with game := { v.game with board := newBoard } }.moved true) →
      m.files = l.files.writeAiMove v.game.board newBoard → OnDisk folder l.files →
      Tracks l folder (.openAiMove v newBoard)
  | closeAiMove {v : Locals} {newBoard : Board 3} {m : Loop} :
      Decides l m ({ v with game := { v.game with board := newBoard } }.moved true) →
      m.files = l.files.writeAiMove v.game.board newBoard →
      OnDisk folder { l.files with ai := some [] } → Tracks l folder (.closeAiMove v newBoard)
  | openBoard {v : Locals} {m : Loop} :
      Decides l m (v.moved true) → m.files.board = some (getPrintBoard v.game.board) →
      OnDisk folder { m.files with board := l.files.board } → Tracks l folder (.openBoard v)
  | closeBoard {v : Locals} {m : Loop} :
      Decides l m (v.moved true) → m.files.board = some (getPrintBoard v.game.board) →
      OnDisk folder { m.files with board := some [] } → Tracks l folder (.closeBoard v)
  | quitExists {v : Locals} {m : Loop} :
      Decides l m v → OnDisk folder m.files → Tracks l folder (.quitExists v)
  | removeQuit {v : Locals} {m : Loop} :
      Decides l m v → OnDisk folder m.files → Tracks l folder (.removeQuit v)
  | openGame {l' : Loop} : goesOn l = false → finish l = some l' → OnDisk folder l.files →
      Tracks l folder (.openGame l'.locals)
  | closeGame {l' : Loop} : goesOn l = false → finish l = some l' →
      OnDisk folder { l.files with game := some [] } → Tracks l folder (.closeGame l'.locals)
  | ended {l' : Loop} : goesOn l = false → finish l = some l' → OnDisk folder l'.files →
      Tracks l folder (.ended l'.locals)

variable {l l' : Loop} {folder folder' : Folder} {p p' : Point}

/-- Other processes keep the iteration where it is. -/
lemma Tracks.foreign (h : Tracks l folder p) (op : Foreign) : Tracks l (op.apply folder) p := by
  cases h with
  | loop hdisk => exact .loop (hdisk.foreign op)
  | moveExists hgoes hplayer hai hturn hdisk =>
      exact .moveExists hgoes hplayer hai hturn (hdisk.foreign op)
  | readMove hreading hdisk => exact .readMove hreading (hdisk.foreign op)
  | removeMove hreading hline hslot hdisk =>
      exact .removeMove hreading hline hslot (hdisk.foreign op)
  | openAiMove hdec hfiles hdisk => exact .openAiMove hdec hfiles (hdisk.foreign op)
  | closeAiMove hdec hfiles hdisk => exact .closeAiMove hdec hfiles (hdisk.foreign op)
  | openBoard hdec hboard hdisk => exact .openBoard hdec hboard (hdisk.foreign op)
  | closeBoard hdec hboard hdisk => exact .closeBoard hdec hboard (hdisk.foreign op)
  | quitExists hdec hdisk => exact .quitExists hdec (hdisk.foreign op)
  | removeQuit hdec hdisk => exact .removeQuit hdec (hdisk.foreign op)
  | openGame hends hfinish hdisk => exact .openGame hends hfinish (hdisk.foreign op)
  | closeGame hends hfinish hdisk => exact .closeGame hends hfinish (hdisk.foreign op)
  | ended hends hfinish hdisk => exact .ended hends hfinish (hdisk.foreign op)

/-! ## The functions of the program up to an operation -/

namespace Locals

variable {v : Locals}

lemma playersMove_of_full (hfull : openCells v.game.board = []) :
    v.playersMove = .quitExists (v.moved false) :=
  if_pos (noPossibleMoves_iff.2 hfull)

lemma playersMove_of_open (hopen : openCells v.game.board ≠ []) : v.playersMove = .readMove v :=
  if_neg fun h => hopen (noPossibleMoves_iff.1 h)

lemma aiMove_of_full (hfull : openCells v.game.board = []) (rands : List ℕ) :
    v.aiMove rands = some (.quitExists (v.moved false)) :=
  if_pos (noPossibleMoves_iff.2 hfull)

lemma aiMove_of_open (hopen : openCells v.game.board ≠ []) (rands : List ℕ) :
    v.aiMove rands = (v.game.nn.aiMove v.game.board (possibleMoves v.game.board) rands).bind
      fun r => (v.game.nn2.playerMove r.2).map fun nn2 =>
        .openAiMove { v with game := { v.game with nn := r.1, nn2 := nn2 } } r.2 := by
  unfold aiMove
  rw [if_neg fun h => hopen (noPossibleMoves_iff.1 h)]
  simp only [Option.map_eq_bind]
  rfl

end Locals

/-! ## The operations of the program -/

section Operations

variable {v : Locals} {rands : List ℕ} {e e' : Edit} {es : List Edit} {files : Files}

/-- The quit check after a body that has written nothing. -/
lemma tracks_quitExists {m : Loop} {i : Input} (hgoes : goesOn l = true) (hbody : body l i = some m)
    (hv : m.locals = v) (hdisk : OnDisk folder m.files) : Tracks l folder (.quitExists v) :=
  .quitExists ⟨hgoes, ⟨i, hbody⟩, hv⟩ hdisk

/-- `AIMove` decides what the iteration does before it writes anything. -/
lemma tracks_aiMove (hgoes : goesOn l = true) (hplayer : ¬ playerWon l.game.board = true)
    (hai : ¬ aiWon l.game.board = true) (hturn : l.game.turn = false)
    (hdisk : OnDisk folder l.files) (hv : v = { l.locals with totalWait := l.totalWait + 500000 })
    (h : v.aiMove rands = some p) : Tracks l folder p := by
  have hgame : v.game = l.game := by rw [hv]; rfl
  have hbody := body_of_ai hplayer hai hturn { rands := rands }
  by_cases hfull : openCells l.game.board = []
  · rw [Locals.aiMove_of_full (hgame ▸ hfull)] at h
    obtain rfl := Option.some.inj h
    rw [aiMove_of_full hfull] at hbody
    refine tracks_quitExists hgoes hbody ?_ hdisk
    rw [hv]
    rfl
  · rw [Locals.aiMove_of_open (hgame ▸ hfull), hgame] at h
    obtain ⟨⟨nn, newBoard⟩, hnn, h⟩ := Option.bind_eq_some_iff.1 h
    obtain ⟨nn2, hnn2, rfl⟩ := Option.map_eq_some_iff.1 h
    rw [aiMove1_of_open hfull, hnn, Option.bind_some, hnn2] at hbody
    refine .openAiMove ⟨hgoes, ⟨_, hbody⟩, ?_⟩ rfl hdisk
    rw [hv]
    rfl

/-- The body of the loop up to its first operation on a file. -/
lemma tracks_body (hgoes : goesOn l = true) (hdisk : OnDisk folder l.files)
    (h : l.locals.body rands = some p) : Tracks l folder p := by
  by_cases hplayer : playerWon l.game.board = true
  · obtain ⟨nn, hout, h⟩ := Option.bind_eq_some_iff.1 ((if_pos hplayer).symm.trans h)
    obtain rfl := Option.some.inj h
    have hbody : body l {} = l.game.nn.badOutcome.bind _ := if_pos hplayer
    rw [show l.game.nn.badOutcome = some nn from hout] at hbody
    exact tracks_quitExists hgoes hbody rfl hdisk
  replace h := (if_neg hplayer).symm.trans h
  by_cases hai : aiWon l.game.board = true
  · obtain ⟨nn, hout, h⟩ := Option.bind_eq_some_iff.1 ((if_pos hai).symm.trans h)
    obtain rfl := Option.some.inj h
    have hbody : body l {} = l.game.nn.goodOutcome.bind _ := (if_neg hplayer).trans (if_pos hai)
    rw [show l.game.nn.goodOutcome = some nn from hout] at hbody
    exact tracks_quitExists hgoes hbody rfl hdisk
  replace h := (if_neg hai).symm.trans h
  cases hturn : l.game.turn with
  | true =>
      obtain rfl := Option.some.inj ((if_pos hturn).symm.trans h)
      exact .moveExists hgoes hplayer hai hturn hdisk
  | false =>
      have hnot : ¬ l.game.turn = true := by rw [hturn]; exact Bool.false_ne_true
      exact tracks_aiMove hgoes hplayer hai hturn hdisk rfl ((if_neg hnot).symm.trans h)

/-- What the move file is at an operation of the program. -/
def seenEdit (folder : Folder) : Edit := some ((folder .playerMove).map fun s => split s '\n')

/-- Looking for the move file. -/
lemma tracks_playersMove (hgoes : goesOn l = true) (hplayer : ¬ playerWon l.game.board = true)
    (hai : ¬ aiWon l.game.board = true) (hturn : l.game.turn = true)
    (hdisk : OnDisk folder l.files) (hv : v = { l.locals with
      totalWait := if (l.files.edit e).player.isSome then 0 else l.totalWait + 500000 }) :
    Tracks l folder v.playersMove := by
  have hgame : v.game = l.game := by rw [hv]; rfl
  by_cases hfull : openCells l.game.board = []
  · have hbody := body_of_player hplayer hai hturn { atExists := e }
    rw [playersMove_of_full hfull] at hbody
    rw [Locals.playersMove_of_full (hgame ▸ hfull)]
    refine tracks_quitExists hgoes hbody ?_ (hdisk.congr rfl rfl rfl)
    rw [hv]
    rfl
  · rw [Locals.playersMove_of_open (hgame ▸ hfull)]
    have hreading : Reading l v e [] (l.files.edit e) :=
      ⟨hgoes, not_gameOver_iff.2 ⟨hplayer, hai, hfull⟩, hturn, hv, fun _ => rfl, ⟨_, rfl⟩⟩
    exact .readMove hreading hdisk

/-- The body of the loop from a read of the move file on. -/
lemma Reading.body_eq (h : Reading l v e es files) (more : List Edit) :
    body l { atExists := e, atReads := es ++ more } =
      ((readMove (possibleMoves l.game.board) more files).bind (afterRead l.game)).map fun r =>
        { l with
          game := r.2.1.changeTurn, files := r.2.2, success := r.1, totalWait := v.totalWait } := by
  obtain ⟨hplayer, hai, hopen⟩ := not_gameOver_iff.1 h.undecided
  rw [body_of_player hplayer hai h.turn, playersMove_of_open hopen, h.reads, h.locals]

/-- Reading the move file. -/
lemma Reading.readMove (h : Reading l v e es files) (hdisk : OnDisk folder l.files)
    (hp : (Website.operate rands (.readMove v) folder).1 = some p) : Tracks l folder p := by
  obtain ⟨player, hfiles⟩ := h.files_eq
  have hlines : ((files.edit (seenEdit folder)).player.getD []) =
      readFromFile (folder .playerMove) :=
    rfl
  unfold Website.operate at hp
  dsimp only at hp
  split at hp
  · rename_i hread
    obtain rfl := Option.some.inj hp
    have hbody := h.body_eq [seenEdit folder]
    rw [readMove_of_no_line (hlines.trans hread)] at hbody
    refine tracks_quitExists h.goes hbody ?_ ?_
    · rw [h.locals]
      rfl
    · exact hdisk.congr (by rw [hfiles]; rfl) (by rw [hfiles]; rfl) (by rw [hfiles]; rfl)
  · rename_i line lines hread
    obtain ⟨slot, hslot, rfl⟩ := Option.map_eq_some_iff.1 hp
    have hline : (files.edit (seenEdit folder)).player = some (line :: lines) := by
      rw [← hlines] at hread
      cases hplayer : (files.edit (seenEdit folder)).player with
      | none => simp [hplayer] at hread
      | some read => rw [← hread, hplayer, Option.getD_some]
    exact .removeMove h hline hslot hdisk

lemma operate_readMove_snd : (Website.operate rands (.readMove v) folder).2 = folder := by
  unfold Website.operate
  dsimp only
  split
  · rfl
  · rfl

/-- Deleting the move file. -/
lemma Reading.removeMove {line : Text} {lines : List Text} {slot : ℤ}
    (h : Reading l v e es files) (hline : (files.edit e').player = some (line :: lines))
    (hslot : stoi line = some slot) (hdisk : OnDisk folder l.files)
    (hp : (Website.operate rands (.removeMove v (slot.tdiv 3, slot.tmod 3)) folder).1 = some p) :
    Tracks l (folder.remove .playerMove) p := by
  obtain ⟨player, hfiles⟩ := h.files_eq
  obtain ⟨-, -, hopen⟩ := not_gameOver_iff.1 h.undecided
  have hgame : v.game = l.game := by rw [h.locals]; rfl
  have hread (more : List Edit) :=
    @readMove_of_line (possibleMoves l.game.board) _ _ _ _ hline more
  simp only [hslot, Option.bind_some] at hread
  have hremoved := hdisk.removeMove
  unfold Website.operate at hp
  dsimp only at hp
  rw [hgame] at hp
  split at hp
  · rename_i hany
    obtain ⟨x, hx, hp⟩ := Option.bind_eq_some_iff.1 hp
    obtain ⟨nn, hnn, hp⟩ := Option.bind_eq_some_iff.1 hp
    obtain rfl := Option.some.inj hp
    have hbody := h.body_eq [e']
    rw [hread, if_pos hany, Option.bind_some, afterRead, hx, Option.bind_some] at hbody
    rw [hgame] at hnn
    rw [hnn] at hbody
    refine .openBoard ⟨h.goes, ⟨_, hbody⟩, ?_⟩ ?_ ?_
    · rw [h.locals]
      rfl
    · rw [hgame]
    · exact hremoved.congr rfl (by rw [hfiles]) (by rw [hfiles])
  · rename_i hnone
    obtain rfl := Option.some.inj hp
    rw [Locals.playersMove_of_open (hgame ▸ hopen)]
    have hreading : Reading l v e (es ++ [e']) { files with player := none } := by
      refine ⟨h.goes, h.undecided, h.turn, h.locals, fun more => ?_, ⟨none, by rw [hfiles]⟩⟩
      rw [List.append_assoc, List.singleton_append, h.reads, hread, if_neg hnone]
    exact .readMove hreading hremoved

/-- The quit check ends the iteration. -/
lemma Decides.iteration {m : Loop} (h : Decides l m v) (quits : Bool) :
    ∃ i l', iteration l i = some l' ∧ l'.locals = v.quitCheck quits ∧
      l'.files = { m.files with quit := false } := by
  obtain ⟨hgoes, ⟨i, hbody⟩, rfl⟩ := h
  have hbody' : body l { i with atQuit := some quits } = some m := hbody
  refine ⟨{ i with atQuit := some quits }, _, by rw [Website.iteration, if_pos hgoes, hbody']; rfl,
    ?_, rfl⟩
  unfold Website.quitCheck stops Locals.quitCheck Loop.locals
  simp only [Option.getD_some]
  split
  · rename_i hstops
    simp only [hstops]
  · rename_i hstops
    simp only [Bool.not_eq_true] at hstops
    simp only [hstops]

/-- Looking for the quit file. -/
lemma Decides.quitExists {m : Loop} (h : Decides l m v) (hdisk : OnDisk folder m.files)
    (hp : (if folder.checkFileExists .quit then .removeQuit v else .loop (v.quitCheck false)) = p) :
    Tracks l folder p ∨ ∃ i l', Website.iteration l i = some l' ∧ Tracks l' folder p := by
  subst hp
  split
  · exact .inl (.removeQuit h hdisk)
  · obtain ⟨i, l', hstep, hlocals, hfiles⟩ := h.iteration false
    refine .inr ⟨i, l', hstep, hlocals ▸ .loop ?_⟩
    exact hdisk.congr (by rw [hfiles]) (by rw [hfiles]) (by rw [hfiles])

/-- The loop is left and the game file is opened. -/
lemma tracks_finish (hends : ¬ goesOn l = true) (hdisk : OnDisk folder l.files)
    (h : l.locals.finish = some p) : Tracks l folder p := by
  rw [Bool.not_eq_true] at hends
  unfold Locals.finish at h
  split at h
  · rename_i hsuccess
    obtain rfl := Option.some.inj h
    have hfinish : finish l = some (writeOutcome l) := if_pos hsuccess
    have htracks := Tracks.openGame hends hfinish hdisk
    exact htracks
  · rename_i hsuccess
    obtain ⟨nn, hout, h⟩ := Option.bind_eq_some_iff.1 h
    obtain rfl := Option.some.inj h
    have hfinish : finish l = l.game.nn.badOutcome.bind _ := if_neg hsuccess
    rw [show l.game.nn.badOutcome = some nn from hout] at hfinish
    have htracks := Tracks.openGame hends hfinish hdisk
    exact htracks

/-- The codes are lines, and the game file holds them at the end. -/
lemma finish_files {l' : Loop} (h : finish l = some l') (hlines : Lines l.gameOutcome) :
    Lines l'.gameOutcome ∧ l'.files = { l.files with game := some l'.gameOutcome } := by
  unfold finish at h
  split at h
  · obtain rfl := Option.some.inj h
    exact ⟨hlines, rfl⟩
  · obtain ⟨nn, _, h⟩ := Option.bind_eq_some_iff.1 h
    obtain rfl := Option.some.inj h
    refine ⟨fun line hline => ?_, rfl⟩
    rcases List.mem_append.1 hline with hline | hline
    · exact hlines line hline
    · rw [List.mem_singleton.1 hline]
      decide

/-- **An operation of the program goes on in the iteration under way or ends it.** -/
theorem Tracks.operate (h : Tracks l folder p) (hlines : Lines l.gameOutcome)
    (hp : operate rands p folder = (some p', folder')) :
    Tracks l folder' p' ∨ ∃ i l', iteration l i = some l' ∧ Tracks l' folder' p' := by
  have hpoint : (Website.operate rands p folder).1 = some p' := congrArg Prod.fst hp
  obtain rfl : (Website.operate rands p folder).2 = folder' := congrArg Prod.snd hp
  cases h with
  | loop hdisk =>
      by_cases hgoes : goesOn l = true
      · exact .inl (tracks_body hgoes hdisk ((if_pos hgoes).symm.trans hpoint))
      · exact .inl (tracks_finish hgoes hdisk ((if_neg hgoes).symm.trans hpoint))
  | moveExists hgoes hplayer hai hturn hdisk =>
      obtain rfl := Option.some.inj hpoint
      have hsome : (l.files.edit (seenEdit folder)).player.isSome =
          folder.checkFileExists .playerMove := Option.isSome_map
      refine .inl (tracks_playersMove hgoes hplayer hai hturn hdisk (e := seenEdit folder) ?_)
      rw [hsome]
      split
      · rfl
      · rfl
  | readMove hreading hdisk =>
      rw [operate_readMove_snd]
      exact .inl (hreading.readMove hdisk hpoint)
  | removeMove hreading hline hslot hdisk =>
      exact .inl (hreading.removeMove hline hslot hdisk hpoint)
  | openAiMove hdec hfiles hdisk =>
      obtain rfl := Option.some.inj hpoint
      exact .inl (.closeAiMove hdec hfiles hdisk.openAiMove)
  | closeAiMove hdec hfiles hdisk =>
      obtain rfl := Option.some.inj hpoint
      refine .inl (.openBoard hdec (by rw [hfiles]; rfl) ?_)
      exact (hdisk.closeAiMove (lines_toStringInt _)).congr rfl (by rw [hfiles]; rfl)
        (by rw [hfiles]; rfl)
  | openBoard hdec hboard hdisk =>
      obtain rfl := Option.some.inj hpoint
      exact .inl (.closeBoard hdec hboard hdisk.openBoard)
  | closeBoard hdec hboard hdisk =>
      obtain rfl := Option.some.inj hpoint
      refine .inl (.quitExists hdec ?_)
      exact (hdisk.closeBoard (lines_getPrintBoard _)).congr hboard rfl rfl
  | quitExists hdec hdisk => exact hdec.quitExists hdisk (Option.some.inj hpoint)
  | removeQuit hdec hdisk =>
      obtain rfl := Option.some.inj hpoint
      obtain ⟨i, l', hstep, hlocals, hfiles⟩ := hdec.iteration true
      refine .inr ⟨i, l', hstep, hlocals ▸ .loop ?_⟩
      exact hdisk.removeQuit.congr (by rw [hfiles]) (by rw [hfiles]) (by rw [hfiles])
  | openGame hends hfinish hdisk =>
      obtain rfl := Option.some.inj hpoint
      exact .inl (.closeGame hends hfinish hdisk.openGame)
  | closeGame hends hfinish hdisk =>
      obtain rfl := Option.some.inj hpoint
      obtain ⟨hcodes, hfiles⟩ := finish_files hfinish hlines
      exact .inl (.ended hends hfinish (hfiles ▸ hdisk.closeGame hcodes))
  | ended hends hfinish hdisk =>
      obtain rfl := Option.some.inj hpoint
      exact .inl (.ended hends hfinish hdisk)

end Operations

end NeuralTicTacToe.Website
