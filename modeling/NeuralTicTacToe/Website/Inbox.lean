import NeuralTicTacToe.Framework.Budgets
import NeuralTicTacToe.Website.Server

/-!
# What the program does about moves and quits

On the server, with the programs of other users and other processes in between.  A move that is
sent is taken at most once, also when the program is killed and started again
(`moves_taken_once`).  A user who quits gets rid of the program: it does only so many more
operations, and two more for each further move that is sent (`quit_answered`).

Both follow the program through its points (`Leads`) and count its operations against those of
other processes by the rule of budgets.
-/

namespace NeuralTicTacToe.Website

open Runs Territories
open Console.TicTacToe (coords)

/-! ## From point to point -/

/-- There is a move in the file, not only an empty file. -/
def Folder.hasMove (folder : Folder) : Bool := !(readFromFile (folder .playerMove)).isEmpty

/-- A move has been read, and its file has not been deleted yet. -/
def hasRead : Option Point → Bool
  | some (.removeMove _ _) => true
  | _ => false

/-- The end of the game has been found out. -/
def Locals.Decided (v : Locals) : Prop :=
  v.playerWon = true ∨ v.aiWon = true ∨ v.success = false

/-- A game that is over ends with the next quit check. -/
lemma Locals.Decided.ends {v : Locals} (h : v.Decided) : (v.quitCheck false).goesOn = false := by
  rw [← Bool.not_eq_true]
  intro hgoes
  unfold Locals.quitCheck Locals.goesOn at hgoes
  rcases h with h | h | h
  all_goals split at hgoes <;> simp [h] at hgoes

/-- Where the program can be after an operation, how long it has waited then, and what the operation
has found in the files. -/
inductive Leads (folder : Folder) : Point → Point → Prop
  | bodyQuit {v w} : v.goesOn = true → w.Decided → Leads folder (.loop v) (.quitExists w)
  | bodyMove {v w} : v.goesOn = true → w.totalWait = v.totalWait + 500000 →
      Leads folder (.loop v) (.moveExists w)
  | bodyAi {v w newBoard} : v.goesOn = true → w.totalWait = v.totalWait + 500000 →
      Leads folder (.loop v) (.openAiMove w newBoard)
  | finish {v w} : v.goesOn = false → Leads folder (.loop v) (.openGame w)
  | wait {v w} :
      w.totalWait = (if folder.checkFileExists .playerMove then 0 else v.totalWait) →
      Leads folder (.moveExists v) (.readMove w)
  | full {v w} : w.Decided → Leads folder (.moveExists v) (.quitExists w)
  | noMove {v w} : w.totalWait = v.totalWait → Leads folder (.readMove v) (.quitExists w)
  | move {v rc} : folder.hasMove = true → Leads folder (.readMove v) (.removeMove v rc)
  | place {v rc w} : w.totalWait = v.totalWait → Leads folder (.removeMove v rc) (.openBoard w)
  | refuse {v rc} : Leads folder (.removeMove v rc) (.readMove v)
  | refuseFull {v rc w} : w.Decided → Leads folder (.removeMove v rc) (.quitExists w)
  | openAi {v newBoard} : Leads folder (.openAiMove v newBoard) (.closeAiMove v newBoard)
  | closeAi {v newBoard w} : w.totalWait = v.totalWait →
      Leads folder (.closeAiMove v newBoard) (.openBoard w)
  | openBoard {v} : Leads folder (.openBoard v) (.closeBoard v)
  | closeBoard {v w} : w.totalWait = v.totalWait → Leads folder (.closeBoard v) (.quitExists w)
  | quit {v} : folder.checkFileExists .quit = true → Leads folder (.quitExists v) (.removeQuit v)
  | noQuit {v} : folder.checkFileExists .quit = false →
      Leads folder (.quitExists v) (.loop (v.quitCheck false))
  | leave {v w} : w.goesOn = false → Leads folder (.removeQuit v) (.loop w)
  | openGame {v} : Leads folder (.openGame v) (.closeGame v)
  | closeGame {v} : Leads folder (.closeGame v) (.ended v)
  | ended {v} : Leads folder (.ended v) (.ended v)

section

variable {p p' : Point} {v : Locals} {folder folder' : Folder} {rands : List ℕ}

lemma leads_playersMove (hquit : ∀ w : Locals, w.Decided → Leads folder p (.quitExists w))
    (hread : Leads folder p (.readMove v)) : Leads folder p v.playersMove := by
  unfold Locals.playersMove
  split
  · exact hquit _ (.inr (.inr rfl))
  · exact hread

lemma leads_aiMove (hquit : ∀ w : Locals, w.Decided → Leads folder p (.quitExists w))
    (hai : ∀ w newBoard, w.totalWait = v.totalWait → Leads folder p (.openAiMove w newBoard))
    (h : v.aiMove rands = some p') : Leads folder p p' := by
  by_cases hfull : openCells v.game.board = []
  · rw [Locals.aiMove_of_full hfull] at h
    obtain rfl := Option.some.inj h
    exact hquit _ (.inr (.inr rfl))
  · rw [Locals.aiMove_of_open hfull] at h
    obtain ⟨⟨nn, newBoard⟩, _, h⟩ := Option.bind_eq_some_iff.1 h
    obtain ⟨nn2, _, rfl⟩ := Option.map_eq_some_iff.1 h
    exact hai _ _ rfl

lemma leads_loop (h : (if v.goesOn then v.body rands else v.finish) = some p') :
    Leads folder (.loop v) p' := by
  split at h
  · rename_i hgoes
    unfold Locals.body at h
    split at h
    · obtain ⟨nn, _, h⟩ := Option.bind_eq_some_iff.1 h
      obtain rfl := Option.some.inj h
      exact .bodyQuit hgoes (.inl rfl)
    · split at h
      · obtain ⟨nn, _, h⟩ := Option.bind_eq_some_iff.1 h
        obtain rfl := Option.some.inj h
        exact .bodyQuit hgoes (.inr (.inl rfl))
      · dsimp only at h
        split at h
        · obtain rfl := Option.some.inj h
          exact .bodyMove hgoes rfl
        · exact leads_aiMove (fun _ => .bodyQuit hgoes) (fun _ _ => .bodyAi hgoes) h
  · rename_i hends
    have hends : v.goesOn = false := Bool.eq_false_iff.2 hends
    unfold Locals.finish at h
    split at h
    · obtain rfl := Option.some.inj h
      exact .finish hends
    · obtain ⟨nn, _, h⟩ := Option.bind_eq_some_iff.1 h
      obtain rfl := Option.some.inj h
      exact .finish hends

lemma leads_moveExists (h : (operate rands (.moveExists v) folder).1 = some p') :
    Leads folder (.moveExists v) p' := by
  obtain rfl := Option.some.inj h
  split
  · rename_i hexists
    exact leads_playersMove (fun _ => .full) (.wait (if_pos hexists).symm)
  · rename_i hnone
    exact leads_playersMove (fun _ => .full) (.wait (if_neg hnone).symm)

lemma leads_readMove (h : (operate rands (.readMove v) folder).1 = some p') :
    Leads folder (.readMove v) p' := by
  unfold operate at h
  dsimp only at h
  split at h
  · obtain rfl := Option.some.inj h
    exact .noMove rfl
  · rename_i line lines hread
    obtain ⟨slot, _, rfl⟩ := Option.map_eq_some_iff.1 h
    have hmove : folder.hasMove = true := by
      rw [Folder.hasMove, hread]
      rfl
    exact .move hmove

lemma leads_removeMove {rc : ℤ × ℤ}
    (h : (operate rands (.removeMove v rc) folder).1 = some p') :
    Leads folder (.removeMove v rc) p' := by
  have hmove : (if (possibleMoves v.game.board).any fun m =>
      coords m = rc then v.place rc else some v.playersMove) = some p' := h
  split at hmove
  · obtain ⟨x, _, hmove⟩ := Option.bind_eq_some_iff.1 hmove
    obtain ⟨nn, _, hmove⟩ := Option.bind_eq_some_iff.1 hmove
    obtain rfl := Option.some.inj hmove
    exact .place rfl
  · obtain rfl := Option.some.inj hmove
    exact leads_playersMove (fun _ => .refuseFull) .refuse

/-- A user who has quit is through with the loop. -/
lemma goesOn_quitCheck (v : Locals) : (v.quitCheck true).goesOn = false := by
  simp [Locals.quitCheck, Locals.goesOn]

/-- **An operation leads on from its point.** -/
theorem leads_of_operate (h : (operate rands p folder).1 = some p') : Leads folder p p' := by
  cases p with
  | loop v => exact leads_loop h
  | moveExists v => exact leads_moveExists h
  | readMove v => exact leads_readMove h
  | removeMove v rc => exact leads_removeMove h
  | quitExists v =>
      obtain rfl := Option.some.inj h
      split
      · exact .quit ‹_›
      · exact .noQuit (Bool.eq_false_iff.2 ‹_›)
  | removeQuit v =>
      obtain rfl := Option.some.inj h
      exact .leave (goesOn_quitCheck v)
  | openAiMove v newBoard =>
      obtain rfl := Option.some.inj h
      exact .openAi
  | closeAiMove v newBoard =>
      obtain rfl := Option.some.inj h
      exact .closeAi rfl
  | openBoard v =>
      obtain rfl := Option.some.inj h
      exact .openBoard
  | closeBoard v =>
      obtain rfl := Option.some.inj h
      exact .closeBoard rfl
  | openGame v =>
      obtain rfl := Option.some.inj h
      exact .openGame
  | closeGame v =>
      obtain rfl := Option.some.inj h
      exact .closeGame
  | ended v =>
      obtain rfl := Option.some.inj h
      exact .ended

end

/-- An operation deletes the move file when it has been read, and no other operation touches it. -/
lemma operate_playerMove (rands : List ℕ) (p : Point) (folder : Folder) :
    (operate rands p folder).2 .playerMove =
      if hasRead (some p) then none else folder .playerMove := by
  cases p with
  | readMove v => exact congrFun operate_readMove_snd _
  | _ => rfl

/-- The quit file is deleted once it has been found. -/
lemma operate_quit (rands : List ℕ) (p : Point) (folder : Folder) :
    (operate rands p folder).2 .quit = folder .quit ∨ ∃ v, p = .removeQuit v := by
  cases p with
  | readMove v => exact .inl (congrFun operate_readMove_snd _)
  | removeQuit v => exact .inr ⟨v, rfl⟩
  | _ => exact .inl rfl

/-! ## Moves -/

/-- The step takes a move: the move file, which has been read, is deleted. -/
def takes (s : Option Point × Folder) : UserAction → ℕ
  | .operate _ => (hasRead s.1).toNat
  | _ => 0

/-- The step sends a move: another process writes it to the move file. -/
def sends (_ : Option Point × Folder) : UserAction → ℕ
  | .foreign (.playerMove text) => (!(readFromFile text).isEmpty).toNat
  | _ => 0

/-- A move waits, in the file or read and not yet deleted. -/
def waiting (s : Option Point × Folder) : ℕ := (hasRead s.1 || s.2.hasMove).toNat

lemma waiting_le_one (s : Option Point × Folder) : waiting s ≤ 1 := Bool.toNat_le _

lemma waiting_of_hasRead {point : Option Point} (h : hasRead point = true) (folder : Folder) :
    waiting (point, folder) = 1 := by
  simp [waiting, h]

lemma waiting_of_not {point : Option Point} (h : hasRead point = false) (folder : Folder) :
    waiting (point, folder) = folder.hasMove.toNat := by
  simp [waiting, h]

/-- Only what is in the file is read, and it is read once. -/
lemma of_hasRead_operate {rands : List ℕ} {p : Point} {folder : Folder}
    (h : hasRead (operate rands p folder).1 = true) :
    hasRead (some p) = false ∧ folder.hasMove = true := by
  cases hop : (operate rands p folder).1 with
  | none =>
      rw [hop] at h
      cases h
  | some p' =>
      rw [hop] at h
      cases leads_of_operate hop with
      | move hmove => exact ⟨rfl, hmove⟩
      | _ => cases h

/-- A move that is taken no longer waits, and no other operation makes one wait. -/
lemma waiting_operate (rands : List ℕ) (p : Point) (folder : Folder) :
    waiting (operate rands p folder) + (hasRead (some p)).toNat ≤ waiting (some p, folder) := by
  have hfile := operate_playerMove rands p folder
  cases hread : hasRead (some p) with
  | true =>
      have hnext : hasRead (operate rands p folder).1 = false :=
        Bool.eq_false_iff.2 fun hnext => by simp [(of_hasRead_operate hnext).1] at hread
      rw [hread, if_pos rfl] at hfile
      have hnone : waiting (operate rands p folder) = 0 := by
        simp [waiting, hnext, Folder.hasMove, hfile, readFromFile]
      rw [hnone, waiting_of_hasRead hread]
      exact le_rfl
  | false =>
      rw [hread, if_neg Bool.false_ne_true] at hfile
      rw [waiting_of_not hread]
      cases hnext : hasRead (operate rands p folder).1 with
      | true =>
          rw [(of_hasRead_operate hnext).2]
          exact waiting_le_one _
      | false => simp [waiting, hnext, Folder.hasMove, hfile]

/-- **A step takes a move that waits, and only what is sent waits.** -/
theorem waiting_step {s s' : Option Point × Folder} {a : UserAction}
    (h : userStep s.1 s.2 a = some s') : waiting s' + takes s a ≤ waiting s + sends s a := by
  obtain ⟨point, folder⟩ := s
  have hforget : waiting (none, folder) ≤ waiting (point, folder) := by
    cases hread : hasRead point with
    | true =>
        rw [waiting_of_hasRead hread]
        exact waiting_le_one _
    | false => exact (waiting_of_not hread folder).ge
  cases a with
  | start choice db =>
      obtain ⟨-, rfl⟩ := userStep_start h
      cases hstart : startPoint choice db with
      | none => exact hforget
      | some p =>
          obtain ⟨l, _, rfl⟩ := Option.map_eq_some_iff.1 hstart
          exact hforget
  | operate rands =>
      obtain ⟨p, rfl, rfl⟩ := Option.map_eq_some_iff.1 h
      exact waiting_operate rands p folder
  | kill =>
      obtain rfl := Option.some.inj h
      exact hforget
  | foreign op =>
      obtain rfl := Option.some.inj h
      cases op with
      | playerMove text =>
          have hsends : sends (point, folder) (.foreign (.playerMove text)) =
            (Foreign.apply folder (.playerMove text)).hasMove.toNat := rfl
          rw [hsends]
          cases hread : hasRead point with
          | true =>
              rw [waiting_of_hasRead hread, waiting_of_hasRead hread]
              exact Nat.le_add_right _ _
          | false =>
              rw [waiting_of_not hread]
              exact Nat.le_add_left _ _
      | quit text => exact le_rfl
      | takeAiMove => exact le_rfl

/-- **A move is taken at most once.**  In every interleaving the moves that the programs for a user
have taken and the one that waits are no more than those that were sent for the user and the one
that waited at first, whether programs are killed and started again or not. -/
theorem moves_taken_once {s₀ s : Server} {steps : List (Server × (ℤ × UserAction))}
    (hrun : Run serverStep s₀ steps s) (u : ℤ) :
    waiting (seen userFiles u s) + total takes (own userFiles u steps) ≤
      waiting (seen userFiles u s₀) + total sends (own userFiles u steps) :=
  @Run.budget _ _ (alone userStep) _ (fun _ _ => True) (fun _ => True) waiting takes sends trivial
    (fun _ _ _ _ _ _ => trivial) (fun _ _ _ _ _ hstep => waiting_step hstep) _ _
    (Run.alone hrun u) fun _ _ => trivial

/-- The program for a user is killed when it has read a move and is about to delete it, and is
started again. -/
def sampleMoves : List (ℤ × UserAction) :=
  [.start 1 ⟨false, true, none⟩, .operate [4], .operate [], .operate [], .operate [], .operate [],
    .operate [], .foreign (.playerMove (some ['8'])), .operate [], .operate [], .operate [], .kill,
    .start 1 ⟨false, true, none⟩, .operate [4], .operate [], .operate [], .operate [], .operate [],
    .operate [], .operate [], .operate [], .operate [], .operate []].map fun a => (1, a)

theorem moves_taken_once_sample : ∃ steps s, Run serverStep noPrograms steps s ∧
    total takes (own userFiles 1 steps) = 1 ∧
    waiting (seen userFiles 1 s) + total takes (own userFiles 1 steps) ≤
      waiting (seen userFiles 1 noPrograms) + total sends (own userFiles 1 steps) := by
  obtain ⟨steps, s, hrun, hs⟩ := exists_run serverStep noPrograms sampleMoves
    (fun steps _ => total takes (own userFiles 1 steps) = 1) (by decide +kernel)
  exact ⟨steps, s, hrun, of_decide_eq_true hs, moves_taken_once hrun 1⟩

/-! ## The work that is left -/

/-- The step is an operation of the program. -/
def works (s : Option Point × Folder) : UserAction → ℕ
  | .operate _ => (isRunning s.1).toNat
  | _ => 0

/-- The work that is left by a rank of the points, with two operations for a move that waits. -/
def work (rank : Point → ℕ) (s : Option Point × Folder) : ℕ :=
  (s.1.map rank).getD 0 + 2 * waiting s

lemma work_le {rank : Point → ℕ} {n : ℕ} (h : ∀ p, rank p ≤ n) (s : Option Point × Folder) :
    work rank s ≤ n + 2 := by
  have hwaiting := waiting_le_one s
  have hrank : (s.1.map rank).getD 0 ≤ n := by
    cases s.1 with
    | none => exact Nat.zero_le n
    | some p => exact h p
  unfold work
  omega

/-- **An operation does some of the work that is left**, where it lowers the rank but for the move
it takes and what is granted, and only starting the program and sending a move make more. -/
theorem work_step {rank : Point → ℕ} {grant : ℕ} {s s' : Option Point × Folder} {a : UserAction}
    (hended : ∀ v, rank (.ended v) = 0)
    (hpos : ∀ p, isRunning (some p) = true → 1 ≤ rank p)
    (hstart : ∀ choice db, a = .start choice db → ∀ l : Loop, rank (.loop l.locals) ≤ grant)
    (hleads : ∀ rands p p', a = .operate rands → s.1 = some p → isRunning (some p) = true →
      Leads s.2 p p' → rank p' + 1 ≤ rank p + 2 * (hasRead (some p)).toNat + grant)
    (h : userStep s.1 s.2 a = some s') :
    work rank s' + works s a ≤ work rank s + (grant + 2 * sends s a) := by
  have hwaiting := waiting_step h
  obtain ⟨point, folder⟩ := s
  cases a with
  | start choice db =>
      obtain ⟨-, rfl⟩ := userStep_start h
      have hwaiting : waiting (startPoint choice db, folder) ≤ waiting (point, folder) := hwaiting
      have hrank : ((startPoint choice db).map rank).getD 0 ≤ grant := by
        cases hpoint : startPoint choice db with
        | none => exact Nat.zero_le grant
        | some p =>
            obtain ⟨l, _, rfl⟩ := Option.map_eq_some_iff.1 hpoint
            exact hstart choice db rfl l
      unfold work works
      dsimp only
      omega
  | operate rands =>
      obtain ⟨p, rfl, rfl⟩ := Option.map_eq_some_iff.1 h
      have hwaiting : waiting (operate rands p folder) + (hasRead (some p)).toNat ≤
          waiting (some p, folder) := hwaiting
      have hrank : ((operate rands p folder).1.map rank).getD 0 + (isRunning (some p)).toNat ≤
          rank p + 2 * (hasRead (some p)).toNat + grant := by
        cases hrunning : isRunning (some p) with
        | false =>
            obtain ⟨v, rfl⟩ := ended_of_not_running hrunning
            refine (Nat.le_of_eq ?_).trans (Nat.zero_le _)
            exact hended v
        | true =>
            cases hop : (operate rands p folder).1 with
            | none =>
                have := hpos p hrunning
                simp only [Option.map_none, Option.getD_none, Bool.toNat_true]
                omega
            | some p' => exact hleads rands p p' rfl rfl hrunning (leads_of_operate hop)
      have hwork : work rank (some p, folder) = rank p + 2 * waiting (some p, folder) := rfl
      rw [hwork]
      unfold work works
      dsimp only
      omega
  | kill =>
      obtain rfl := Option.some.inj h
      have hwaiting : waiting (none, folder) ≤ waiting (point, folder) := hwaiting
      unfold work works
      dsimp only [Option.map_none, Option.getD_none]
      omega
  | foreign op =>
      obtain rfl := Option.some.inj h
      have hwaiting : waiting (point, op.apply folder) ≤
          waiting (point, folder) + sends (point, folder) (.foreign op) := hwaiting
      unfold work works
      dsimp only
      omega

/-! ## Quits -/

/-- The program has found the quit file, or is through with the loop. -/
def Point.isLeaving : Point → Bool
  | .removeQuit _ | .openGame _ | .closeGame _ | .ended _ => true
  | .loop v => !v.goesOn
  | _ => false

/-- The operations up to the end, when the quit file is there and no move is read. -/
def Point.rank : Point → ℕ
  | .ended _ => 0
  | .closeGame _ => 1
  | .openGame _ => 2
  | .loop v => if v.goesOn then 10 else 3
  | .removeQuit _ => 4
  | .quitExists _ => 5
  | .closeBoard _ | .removeMove _ _ => 6
  | .openBoard _ | .readMove _ => 7
  | .moveExists _ | .closeAiMove _ _ => 8
  | .openAiMove _ _ => 9

lemma rank_le (p : Point) : p.rank ≤ 10 := by
  unfold Point.rank
  split
  case h_4 v => split <;> decide
  all_goals decide

lemma rank_pos {p : Point} (hrunning : isRunning (some p) = true) : 1 ≤ p.rank := by
  unfold Point.rank
  split
  case h_1 v => cases hrunning
  case h_4 v => split <;> decide
  all_goals decide

/-- The step leaves a user who has quit alone: it does not start the program or take back the quit
file. -/
def UserAction.keepsQuit : UserAction → Bool
  | .start _ _ | .foreign (.quit none) => false
  | _ => true

/-- A program that runs has found the quit file, or will find it. -/
def HasQuit (s : Option Point × Folder) : Prop :=
  ∀ p, s.1 = some p → p.isLeaving = true ∨ s.2.checkFileExists .quit = true

/-- An operation leads nearer to the end, but for the move it takes. -/
lemma Leads.rank_lt {folder : Folder} {p p' : Point} (h : Leads folder p p')
    (hquit : p.isLeaving = true ∨ folder.checkFileExists .quit = true)
    (hrunning : isRunning (some p) = true) :
    p'.rank + 1 ≤ p.rank + 2 * (hasRead (some p)).toNat := by
  cases h with
  | bodyQuit hgoes => simp [Point.rank, hasRead, hgoes]
  | bodyMove hgoes => simp [Point.rank, hasRead, hgoes]
  | bodyAi hgoes => simp [Point.rank, hasRead, hgoes]
  | finish hends => simp [Point.rank, hasRead, hends]
  | noQuit hnone => simp [Point.isLeaving, hnone] at hquit
  | leave hends => simp [Point.rank, hasRead, hends]
  | ended => cases hrunning
  | _ => simp [Point.rank, hasRead]

/-- Who is leaving does not come back. -/
lemma Leads.isLeaving {folder : Folder} {p p' : Point} (h : Leads folder p p')
    (hleaving : p.isLeaving = true) : p'.isLeaving = true := by
  cases h with
  | bodyQuit hgoes => simp [Point.isLeaving, hgoes] at hleaving
  | bodyMove hgoes => simp [Point.isLeaving, hgoes] at hleaving
  | bodyAi hgoes => simp [Point.isLeaving, hgoes] at hleaving
  | leave hends => simp [Point.isLeaving, hends]
  | finish => rfl
  | openGame => rfl
  | closeGame => rfl
  | ended => rfl
  | _ => cases hleaving

lemma hasQuit_step {s s' : Option Point × Folder} {a : UserAction} (hs : HasQuit s)
    (hkeep : a.keepsQuit = true) (h : userStep s.1 s.2 a = some s') : HasQuit s' := by
  obtain ⟨point, folder⟩ := s
  intro p' hp'
  cases a with
  | start choice db => cases hkeep
  | operate rands =>
      obtain ⟨p, rfl, rfl⟩ := Option.map_eq_some_iff.1 h
      have hleads : Leads folder p p' := leads_of_operate hp'
      rcases operate_quit rands p folder with hfile | ⟨v, rfl⟩
      · rcases hs p rfl with hleaving | hexists
        · exact .inl (hleads.isLeaving hleaving)
        · refine .inr ?_
          rw [Folder.checkFileExists, hfile]
          exact hexists
      · exact .inl (hleads.isLeaving rfl)
  | kill =>
      obtain rfl := Option.some.inj h
      cases hp'
  | foreign op =>
      obtain rfl := Option.some.inj h
      rcases hs p' hp' with hleaving | hexists
      · exact .inl hleaving
      · refine .inr ?_
        cases op with
        | quit text =>
            cases text with
            | none => cases hkeep
            | some text => rfl
        | _ => exact hexists

/-- **A quit is answered.**  Once a user has quit, and until the program is started again for this
user, a program that runs does at most twelve more operations, and two more for each further move
that is sent. -/
theorem quit_answered {s₀ s : Server} {steps : List (Server × (ℤ × UserAction))} {u : ℤ}
    (hquit : (s₀.2 (path u .quit)).isSome = true) (hrun : Run serverStep s₀ steps s)
    (hkeep : ∀ x ∈ steps, x.2.1 = u → x.2.2.keepsQuit = true) :
    total works (own userFiles u steps) ≤ 12 + 2 * total sends (own userFiles u steps) := by
  have hok : All (fun _ a => UserAction.keepsQuit a = true) (own userFiles u steps) := by
    intro x hx
    obtain ⟨t, ht, -⟩ := mem_own.1 hx
    exact hkeep _ ht rfl
  have hquit : HasQuit (seen userFiles u s₀) := fun p _ => .inr hquit
  have hstep : ∀ (s s' : Option Point × Folder) a, HasQuit s → UserAction.keepsQuit a = true →
      userStep s.1 s.2 a = some s' →
      work Point.rank s' + works s a ≤ work Point.rank s + (0 + 2 * sends s a) := by
    intro s s' a hs ha h
    refine work_step (fun _ => rfl) (fun _ => rank_pos) ?_ ?_ h
    · rintro choice db rfl
      cases ha
    · rintro rands p p' - hp hrunning hleads
      exact hleads.rank_lt (hs p hp) hrunning
  have hbudget := @Run.budget _ _ (alone userStep) _ (fun _ a => UserAction.keepsQuit a = true)
    HasQuit (work Point.rank) works (fun s a => 0 + 2 * sends s a) hquit
    (fun _ _ _ hs hok h => hasQuit_step hs hok h) (fun _ _ _ hs hok h => hstep _ _ _ hs hok h) _ _
    (Run.alone hrun u) hok
  have hinit := work_le rank_le (seen userFiles u s₀)
  rw [total_add, total_zero, total_mul] at hbudget
  omega

/-- A program waits for the move of a user who has quit. -/
def quitServer : Server :=
  (fun _ => some (.moveExists { game := { TicTacToe.init with turn := true } }),
    fun name => if name = path 1 .quit then some [] else none)

/-- The user's move comes nevertheless, while the program for another user goes on. -/
def sampleQuit : List (ℤ × UserAction) :=
  [(2, .operate []), (1, .foreign (.playerMove (some ['8']))), (1, .operate []), (1, .operate []),
    (1, .operate []), (2, .operate []), (1, .operate []), (1, .operate []), (1, .operate []),
    (1, .operate []), (1, .operate []), (1, .operate []), (1, .operate [])]

theorem quit_answered_sample : ∃ steps s, Run serverStep quitServer steps s ∧
    isRunning (s.1 1) = false ∧ 0 < total works (own userFiles 1 steps) ∧
    total works (own userFiles 1 steps) ≤ 12 + 2 * total sends (own userFiles 1 steps) := by
  obtain ⟨steps, s, hrun, hok, hs⟩ := @exists_run_all _ _ serverStep quitServer sampleQuit
    (fun _ a => a.2.keepsQuit = true) (fun a ha _ => by revert a; decide)
    (fun steps s => isRunning (s.1 1) = false ∧ 0 < total works (own userFiles 1 steps))
    (by decide +kernel)
  obtain ⟨hended, hworks⟩ := of_decide_eq_true hs
  exact ⟨steps, s, hrun, hended, hworks,
    quit_answered (by decide) hrun fun x hx _ => hok x hx⟩

end NeuralTicTacToe.Website
