import NeuralTicTacToe.Website.FileRuns
import NeuralTicTacToe.Website.Policy

/-!
# Many users on one server

The server runs a program for each user who plays.  The programs, and other processes, work on the
files one operation at a time, in any order; a program may be killed anywhere.  For every user it
looks as if the program's loop ran alone and its iterations were atomic (`served_apart`).  So what
was proved of the loop holds on the server: the board files show boards of legal games at any time
(`boards_legal`).
-/

namespace NeuralTicTacToe.Website

open NN Runs Territories

/-- The programs of the users, and the files. -/
abbrev Server := (ℤ → Option Point) × (Text → Option Text)

/-- One step for one of the users. -/
def serverStep : Server → ℤ × UserAction → Option Server := together userFiles userStep

/-! ## One user -/

lemma ended_of_not_running {p : Point} (h : isRunning (some p) = false) : ∃ v, p = .ended v := by
  cases p with
  | ended v => exact ⟨v, rfl⟩
  | _ => cases h

/-- Starting a program that does not run. -/
lemma userStep_start {point : Option Point} {folder : Folder} {choice : ℤ} {db : File}
    {x : Option Point × Folder} (h : userStep point folder (.start choice db) = some x) :
    isRunning point = false ∧ x = (startPoint choice db, folder) := by
  unfold userStep at h
  dsimp only at h
  split at h
  · cases h
  · rename_i hidle
    exact ⟨Bool.eq_false_iff.2 hidle, (Option.some.inj h).symm⟩

/-- The program came to this point by a run of its loop. -/
def Serves (choice : ℤ) (db : File) (folder : Folder) (p : Point) : Prop :=
  ∃ files l₀ steps l, enter TicTacToe.init choice db files = some l₀ ∧
    Run iteration l₀ steps l ∧ Tracks l folder p

/-- The codes of the results are lines. -/
lemma lines_gameOutcome {l₀ l : Loop} {steps : List (Loop × Input)} (h₀ : l₀.gameOutcome = [])
    (hrun : Run iteration l₀ steps l) : Lines l.gameOutcome := by
  have hcode (lines : List Text) (hlines : Lines lines) (c : Char) (hc : c ≠ '\n') :
      Lines (lines ++ [[c]]) := by
    intro line hline
    rcases List.mem_append.1 hline with hline | hline
    · exact hlines line hline
    · rw [List.mem_singleton.1 hline, List.mem_singleton]
      exact hc.symm
  refine @Run.invariant _ _ _ _ (fun _ _ => True) (fun l => Lines l.gameOutcome) ?_
    (fun l i l' hl _ hstep => ?_) _ _ hrun fun _ _ => trivial
  · rw [h₀]
    exact fun line hline => absurd hline List.not_mem_nil
  · obtain ⟨_, m, hbody, rfl⟩ := iteration_eq_some hstep
    have hm : Lines m.gameOutcome := by
      cases body_effect hbody with
      | playerWins => exact hcode _ hl '1' (by decide)
      | aiWins => exact hcode _ hl '2' (by decide)
      | full => exact hl
      | idle => exact hl
      | playersMove => exact hl
      | aiMove => exact hl
    unfold quitCheck
    dsimp only
    split
    · exact hcode _ hm '3' (by decide)
    · exact hm

/-- The files as the program finds them. -/
def Folder.files (folder : Folder) : Files where
  player := (folder .playerMove).map fun s => split s '\n'
  quit := folder.checkFileExists .quit
  ai := (folder .aiMove).map fun s => split s '\n'
  board := (folder .board).map fun s => split s '\n'
  game := (folder .game).map fun s => split s '\n'

lemma onDisk_files (folder : Folder) : OnDisk folder folder.files := ⟨rfl, rfl, .inr rfl⟩

/-- The files are not looked at before the loop. -/
lemma enter_files (g : TicTacToe) (choice : ℤ) (db : File) (files : Files) :
    enter g choice db files = (enter g choice db {}).map fun l => { l with files := files } := by
  unfold enter
  rw [Option.map_map]
  rfl

namespace Serves

variable {choice : ℤ} {db : File} {folder folder' : Folder} {p p' : Point} {rands : List ℕ}

/-- The program is started. -/
lemma start {l : Loop} (h : enter TicTacToe.init choice db {} = some l) (folder : Folder) :
    Serves choice db folder (.loop l.locals) := by
  have henter : enter TicTacToe.init choice db folder.files =
      some { l with files := folder.files } := by
    rw [enter_files, h, Option.map_some]
  have hdisk : OnDisk folder ({ l with files := folder.files } : Loop).files := onDisk_files folder
  exact ⟨_, _, [], _, henter, .nil, .loop hdisk⟩

lemma foreign (h : Serves choice db folder p) (op : Foreign) :
    Serves choice db (op.apply folder) p := by
  obtain ⟨files, l₀, steps, l, henter, hrun, htracks⟩ := h
  exact ⟨files, l₀, steps, l, henter, hrun, htracks.foreign op⟩

lemma operate (h : Serves choice db folder p)
    (hp : Website.operate rands p folder = (some p', folder')) : Serves choice db folder' p' := by
  obtain ⟨files, l₀, steps, l, henter, hrun, htracks⟩ := h
  have hempty : l₀.gameOutcome = [] := by
    obtain ⟨nn, _, rfl⟩ := Option.map_eq_some_iff.1 henter
    rfl
  rcases htracks.operate (lines_gameOutcome hempty hrun) hp with htracks' | ⟨i, l', hi, htracks'⟩
  · exact ⟨files, l₀, steps, l, henter, hrun, htracks'⟩
  · exact ⟨files, l₀, _, l', henter, hrun.snoc hi, htracks'⟩

end Serves

/-- A step for the user: a program that runs has been started and serves. -/
lemma serves_of_run {x₀ x : Option Point × Folder}
    {steps : List ((Option Point × Folder) × UserAction)}
    (hidle : x₀.1 = none) (hrun : Run (alone userStep) x₀ steps x) :
    ∀ p, x.1 = some p → ∃ choice db, (∃ y, (y, UserAction.start choice db) ∈ steps) ∧
      Serves choice db x.2 p := by
  induction hrun with
  | nil => exact fun p hp => absurd (hidle.symm.trans hp) (by simp)
  | @snoc steps x x' a hrun hstep ih =>
      obtain ⟨point, folder⟩ := x
      have hlater {choice : ℤ} {db : File} (h : ∃ y, (y, UserAction.start choice db) ∈ steps) :
          ∃ y, (y, UserAction.start choice db) ∈ steps ++ [((point, folder), a)] := by
        obtain ⟨y, hy⟩ := h
        exact ⟨y, List.mem_append_left _ hy⟩
      intro p' hp'
      cases a with
      | start choice db =>
          obtain ⟨-, rfl⟩ := userStep_start hstep
          obtain ⟨l, hl, rfl⟩ := Option.map_eq_some_iff.1 hp'
          exact ⟨choice, db, ⟨(point, folder), by simp⟩, .start hl folder⟩
      | operate rands =>
          obtain ⟨p, rfl, hop⟩ := Option.map_eq_some_iff.1 hstep
          obtain ⟨choice, db, hstart, hserves⟩ := ih p rfl
          have hop' : Website.operate rands p folder = (some p', x'.2) := by rw [hop, ← hp']
          exact ⟨choice, db, hlater hstart, hserves.operate hop'⟩
      | kill =>
          obtain rfl := Option.some.inj hstep
          cases hp'
      | foreign op =>
          obtain rfl := Option.some.inj hstep
          obtain ⟨choice, db, hstart, hserves⟩ := ih p' hp'
          exact ⟨choice, db, hlater hstart, hserves.foreign op⟩

/-! ## All users -/

/-- **The users do not disturb each other, and iterations are atomic.**  In every interleaving of
file operations, a program that runs for a user is where a run of its loop takes it that began when
it was started for this user, and the user's files are as the run has left them; and without a step
for a user nothing of the user's changes. -/
theorem served_apart {s₀ s : Server} {steps : List (Server × (ℤ × UserAction))}
    (hidle : ∀ u, s₀.1 u = none) (hrun : Run serverStep s₀ steps s) :
    (∀ u p, s.1 u = some p → ∃ choice db, (∃ t, (t, (u, UserAction.start choice db)) ∈ steps) ∧
      Serves choice db (fun file => s.2 (path u file)) p) ∧
    ∀ u, (∀ x ∈ steps, x.2.1 ≠ u) →
      s.1 u = s₀.1 u ∧ ∀ file, s.2 (path u file) = s₀.2 (path u file) := by
  refine ⟨fun u p hp => ?_, fun u hu => ?_⟩
  · obtain ⟨choice, db, ⟨y, hy⟩, hserves⟩ := serves_of_run (hidle u) (Run.alone hrun u) p hp
    obtain ⟨t, ht, -⟩ := mem_own.1 hy
    exact ⟨choice, db, ⟨t, ht⟩, hserves⟩
  · obtain ⟨hpoint, hfolder⟩ := Prod.mk.inj (Run.seen_eq hrun hu)
    exact ⟨hpoint, fun file => congrFun hfolder file⟩

/-- Games are started with new nets. -/
def UserAction.new : UserAction → Bool
  | .start choice _ => choice = 1
  | _ => true

/-- No program runs, and there are no files. -/
def noPrograms : Server := (fun _ => none, fun _ => none)

/-- The AI of one user makes its move while a program for another user is started and killed, and
a move file is written. -/
def sampleServer : List (ℤ × UserAction) :=
  [(1, .start 1 ⟨false, true, none⟩), (1, .operate [4]), (2, .start 1 ⟨false, true, none⟩),
    (1, .operate []), (1, .operate []), (2, .kill), (1, .operate []), (1, .operate []),
    (1, .foreign (.playerMove (some ['8'])))]

theorem served_apart_sample : ∃ steps s p, Run serverStep noPrograms steps s ∧ s.1 1 = some p ∧
    ∃ choice db, Serves choice db (fun file => s.2 (path 1 file)) p := by
  obtain ⟨steps, s, hrun, hs⟩ := exists_run serverStep noPrograms sampleServer
    (fun _ s => (s.1 1).isSome) (by decide +kernel)
  obtain ⟨p, hp⟩ := Option.isSome_iff_exists.1 hs
  obtain ⟨choice, db, -, hserves⟩ := (served_apart (fun _ => rfl) hrun).1 1 p hp
  exact ⟨steps, s, p, hrun, hp, choice, db, hserves⟩

/-! ## Legal boards -/

/-- There is no board file, or it is empty, or it shows the last board of a legal game. -/
def LegalBoardFile (text : Option Text) : Prop :=
  text = none ∨ text = some [] ∨
    ∃ game, LegalGame game ∧ Reads text (some (getPrintBoard (lastBoard game)))

/-- A net the AI can play legally with, if one is loaded. -/
def LegalNet (choice : ℤ) (db : File) : Prop :=
  ∀ l, enter TicTacToe.init choice db {} = some l → l.game.nn.Playable ∧ l.game.nn.Distinct

/-- A new net is one. -/
lemma legalNet_new (db : File) : LegalNet 1 db := by
  intro l hl
  obtain rfl := Option.some.inj hl
  exact ⟨(NN.Playable.fresh.setPiece aiPiece).resetPtr, (NN.trie_freshWith aiPiece).distinct⟩

/-- The operations on the board file. -/
lemma operate_board (rands : List ℕ) (p : Point) (folder : Folder) :
    (operate rands p folder).2 .board = folder .board ∨
      (operate rands p folder).2 .board = some [] ∨
      ∃ v, p = .closeBoard v ∧ (operate rands p folder).2 .board =
        (folder .board).map fun _ => fileText (getPrintBoard v.game.board) := by
  cases p with
  | readMove v => exact .inl (by rw [operate_readMove_snd])
  | openBoard v => exact .inr (.inl rfl)
  | closeBoard v => exact .inr (.inr ⟨v, rfl, rfl⟩)
  | _ => exact .inl rfl

/-- A board that is written is a legal one. -/
lemma Serves.legalBoard {choice : ℤ} {db : File} {folder : Folder} {v : Locals}
    (h : Serves choice db folder (.closeBoard v)) (hnet : LegalNet choice db) :
    ∃ game, LegalGame game ∧ lastBoard game = v.game.board := by
  obtain ⟨files, l₀, steps, l, henter, hrun, htracks⟩ := h
  rw [enter_files] at henter
  obtain ⟨l₁, hl₁, rfl⟩ := Option.map_eq_some_iff.1 henter
  obtain ⟨hplay, hdistinct⟩ := hnet l₁ hl₁
  have henter' := (enter_files _ _ _ _).trans henter
  cases htracks with
  | closeBoard hdec _ _ =>
      obtain ⟨i, l', hstep, hlocals, -⟩ := hdec.iteration true
      obtain ⟨hlegal, hlast⟩ := legalGame_of_run henter' hplay hdistinct (hrun.snoc hstep)
      refine ⟨_, hlegal, hlast.trans ?_⟩
      have hboard : l'.locals.game.board = ((v.moved true).quitCheck true).game.board := by
        rw [hlocals]
      exact hboard

lemma legalBoardFile_of_run {x₀ x : Option Point × Folder}
    {steps : List ((Option Point × Folder) × UserAction)} (hidle : x₀.1 = none)
    (hfile : LegalBoardFile (x₀.2 .board)) (hrun : Run (alone userStep) x₀ steps x)
    (hnets : ∀ y choice db, (y, UserAction.start choice db) ∈ steps → LegalNet choice db) :
    LegalBoardFile (x.2 .board) := by
  induction hrun with
  | nil => exact hfile
  | @snoc steps x x' a hrun hstep ih =>
      replace ih := ih fun y choice db hy => hnets y choice db (List.mem_append_left _ hy)
      obtain ⟨point, folder⟩ := x
      cases a with
      | start choice db =>
          obtain ⟨-, rfl⟩ := userStep_start hstep
          exact ih
      | operate rands =>
          obtain ⟨p, rfl, rfl⟩ := Option.map_eq_some_iff.1 hstep
          rcases operate_board rands p folder with hsame | hopen | ⟨v, rfl, hclose⟩
          · rw [hsame]
            exact ih
          · exact .inr (.inl hopen)
          · obtain ⟨choice, db, ⟨y, hy⟩, hserves⟩ := serves_of_run hidle hrun _ rfl
            obtain ⟨game, hlegal, hlast⟩ :=
              hserves.legalBoard (hnets y choice db (List.mem_append_left _ hy))
            rw [hclose, ← hlast]
            cases folder .board with
            | none => exact .inl rfl
            | some s => exact .inr (.inr ⟨game, hlegal, reads_fileText (lines_getPrintBoard _)⟩)
      | kill =>
          obtain rfl := Option.some.inj hstep
          exact ih
      | foreign op =>
          obtain rfl := Option.some.inj hstep
          cases op with
          | playerMove text => exact ih
          | quit text => exact ih
          | takeAiMove => exact ih

/-- **The boards that the website finds in the files are those of legal games**, whatever moves the
users send and however the programs are interrupted, if all nets that are loaded can be played
with. -/
theorem boards_legal {s₀ s : Server} {steps : List (Server × (ℤ × UserAction))}
    (hidle : ∀ u, s₀.1 u = none) (hfiles : ∀ u, LegalBoardFile (s₀.2 (path u .board)))
    (hrun : Run serverStep s₀ steps s)
    (hnets : ∀ t u choice db, (t, (u, UserAction.start choice db)) ∈ steps → LegalNet choice db)
    (u : ℤ) : LegalBoardFile (s.2 (path u .board)) := by
  refine legalBoardFile_of_run (hidle u) (hfiles u) (Run.alone hrun u) fun y choice db hy => ?_
  obtain ⟨t, ht, -⟩ := mem_own.1 hy
  exact hnets t u choice db ht

theorem boards_legal_sample : ∃ steps s, Run serverStep noPrograms steps s ∧
    (s.2 (path 1 .board)).isSome = true ∧ LegalBoardFile (s.2 (path 1 .board)) := by
  obtain ⟨steps, s, hrun, hok, hs⟩ := @exists_run_all _ _ serverStep noPrograms sampleServer
    (fun _ a => a.2.new = true) (fun a ha _ => by revert a; decide)
    (fun _ s => (s.2 (path 1 .board)).isSome) (by decide +kernel)
  refine ⟨steps, s, hrun, hs, boards_legal (fun _ => rfl) (fun _ => .inl rfl) hrun ?_ 1⟩
  intro t u choice db hstart
  obtain rfl : choice = 1 := of_decide_eq_true (hok _ hstart)
  exact legalNet_new db

end NeuralTicTacToe.Website
