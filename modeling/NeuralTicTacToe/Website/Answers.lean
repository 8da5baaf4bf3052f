import NeuralTicTacToe.Website.Agreement
import NeuralTicTacToe.Website.Inbox

/-!
# The AI's move comes

A website that keeps to its steps and agrees with the program, and polls for the AI's move, gets it
after so many operations of the program, or the game ends (`move_answered`).  For when the website
polls in vain it is the AI's turn, or the user's move is in the file, is read there, and is
accepted; each operation leads nearer to the AI's move.
-/

namespace NeuralTicTacToe.Website

open Runs Territories
open Console.TicTacToe (coords)

/-! ## The way to the AI's move -/

/-- The program is in its loop, and there is no move of the AI in the file. -/
def pending (x : (Option Point × Site) × Folder) : Bool :=
  x.1.1.any (fun p => !p.isLeaving) && (readFromFile (x.2 .aiMove)).isEmpty

/-- The operations up to the AI's move or to the end of the loop, when the website polls. -/
def Point.distance : Point → ℕ
  | .openBoard v => if v.game.turn then 6 else 13
  | .closeBoard v => if v.game.turn then 5 else 12
  | .quitExists v => if (v.quitCheck false).goesOn then if v.game.turn then 11 else 4 else 1
  | .loop v => if v.game.turn then 10 else 3
  | .moveExists _ => 9
  | .readMove _ => 8
  | .removeMove _ _ => 7
  | .openAiMove _ _ => 2
  | .closeAiMove _ _ => 1
  | .removeQuit _ | .openGame _ | .closeGame _ | .ended _ => 0

/-- What is to be done while the program owes a move. -/
def togo (x : (Option Point × Site) × Folder) : ℕ :=
  if pending x then (x.1.1.map Point.distance).getD 0 else 0

/-- The step is an operation of the program. -/
def isOperate : GameAction → Bool
  | .operate _ => true
  | _ => false

section

variable {p p' : Point} {v : Locals} {folder : Folder} {rands : List ℕ} {shown : Board 3}

lemma distance_le (p : Point) : p.distance ≤ 13 := by
  unfold Point.distance
  split
  case h_1 => split <;> decide
  case h_2 => split <;> decide
  case h_3 => split_ifs <;> decide
  case h_4 => split <;> decide
  all_goals decide

lemma distance_pos (h : p.isLeaving = false) : 1 ≤ p.distance := by
  unfold Point.distance
  split
  case h_1 => split <;> decide
  case h_2 => split <;> decide
  case h_3 => split_ifs <;> decide
  case h_4 => split <;> decide
  case h_10 => cases h
  case h_11 => cases h
  case h_12 => cases h
  case h_13 => cases h
  all_goals decide

lemma togo_le (x : (Option Point × Site) × Folder) : togo x ≤ 13 := by
  unfold togo
  split
  · cases x.1.1 with
    | none => exact Nat.zero_le 13
    | some p => exact distance_le p
  · exact Nat.zero_le 13

/-- When the website polls in vain in the user's turn, the user's move is there. -/
lemma Phase.of_polling {board : Board 3} (h : Phase folder true board (.polling shown))
    (hai : readFromFile (folder .aiMove) = []) :
    ∃ x, board x = 0 ∧ readFromFile (folder .playerMove) = [slotText x] := by
  cases h with
  | aiMoved _ ha => simp [ha] at hai
  | userMoved hx _ hp => exact ⟨_, hx, hp⟩

lemma distance_quitExists (h : v.Decided) : (Point.quitExists v).distance = 1 := by
  rw [Point.distance, h.ends]
  rfl

lemma distance_playersMove (hopen : openCells v.game.board ≠ []) :
    v.playersMove.distance + 1 ≤ 9 := by
  rw [Locals.playersMove_of_open hopen]
  exact le_rfl

lemma distance_aiMove (h : v.aiMove rands = some p') : p'.distance ≤ 2 := by
  by_cases hfull : openCells v.game.board = []
  · rw [Locals.aiMove_of_full hfull] at h
    obtain rfl := Option.some.inj h
    rw [distance_quitExists (.inr (.inr rfl))]
    decide
  · rw [Locals.aiMove_of_open hfull] at h
    obtain ⟨⟨nn, newBoard⟩, _, h⟩ := Option.bind_eq_some_iff.1 h
    obtain ⟨nn2, _, rfl⟩ := Option.map_eq_some_iff.1 h
    exact le_rfl

lemma distance_body (h : v.body rands = some p') :
    p'.distance + 1 ≤ (Point.loop v).distance := by
  have hloop : 3 ≤ (Point.loop v).distance := by
    unfold Point.distance
    dsimp only
    split <;> decide
  unfold Locals.body at h
  split at h
  · obtain ⟨nn, _, h⟩ := Option.bind_eq_some_iff.1 h
    obtain rfl := Option.some.inj h
    rw [distance_quitExists (.inl rfl)]
    omega
  split at h
  · obtain ⟨nn, _, h⟩ := Option.bind_eq_some_iff.1 h
    obtain rfl := Option.some.inj h
    rw [distance_quitExists (.inr (.inl rfl))]
    omega
  dsimp only at h
  split at h
  · rename_i hturn
    obtain rfl := Option.some.inj h
    simp [Point.distance, hturn]
  · have hai := distance_aiMove h
    omega

/-- **An operation leads nearer to the AI's move.** -/
theorem distance_operate (h : InTouch folder (.polling shown) p)
    (hai : readFromFile (folder .aiMove) = []) (hloop : p.isLeaving = false)
    (hop : (operate rands p folder).1 = some p') :
    p'.isLeaving = true ∨ readFromFile ((operate rands p folder).2 .aiMove) ≠ [] ∨
      p'.distance + 1 ≤ p.distance := by
  cases p with
  | loop v =>
      have hgoes : v.goesOn = true := by simpa [Point.isLeaving] using hloop
      exact .inr (.inr (distance_body ((if_pos hgoes).symm.trans hop)))
  | moveExists v =>
      obtain ⟨x, hx, -⟩ := h.2.of_polling hai
      have hopen : openCells v.game.board ≠ [] := List.ne_nil_of_mem (mem_openCells.2 hx)
      obtain rfl := Option.some.inj hop
      refine .inr (.inr ?_)
      split
      · exact distance_playersMove hopen
      · exact distance_playersMove hopen
  | readMove v =>
      obtain ⟨x, -, hread⟩ := h.2.of_polling hai
      unfold operate at hop
      dsimp only at hop
      rw [hread] at hop
      obtain ⟨slot, _, rfl⟩ := Option.map_eq_some_iff.1 hop
      exact .inr (.inr le_rfl)
  | removeMove v rc =>
      obtain ⟨hturn, x, hx, rfl, -, -, -⟩ := h
      have hplace : v.place (coords (some x)) = some p' :=
        (if_pos (Console.any_coords_cell.2 hx)).symm.trans hop
      obtain ⟨y, _, hplace⟩ := Option.bind_eq_some_iff.1 hplace
      obtain ⟨nn, _, hplace⟩ := Option.bind_eq_some_iff.1 hplace
      obtain rfl := Option.some.inj hplace
      refine .inr (.inr ?_)
      simp [Point.distance, hturn]
  | openAiMove v newBoard =>
      obtain rfl := Option.some.inj hop
      exact .inr (.inr le_rfl)
  | closeAiMove v newBoard =>
      obtain ⟨-, -, hopen, -⟩ := h
      refine .inr (.inl ?_)
      have hread : readFromFile ((operate rands (.closeAiMove v newBoard) folder).2 .aiMove) = _ :=
        readFromFile_writeAndClose hopen (lines_toStringInt _)
      simp [hread]
  | openBoard v =>
      obtain rfl := Option.some.inj hop
      refine .inr (.inr ?_)
      unfold Point.distance
      dsimp only
      split <;> decide
  | closeBoard v =>
      obtain rfl := Option.some.inj hop
      refine .inr (.inr ?_)
      cases hturn : v.game.turn
      all_goals
        simp only [Point.distance, Locals.moved, TicTacToe.changeTurn, hturn]
        split <;> decide
  | quitExists v =>
      obtain rfl := Option.some.inj hop
      split
      · exact .inl rfl
      · cases hgoes : (v.quitCheck false).goesOn with
        | false => exact .inl (by simp [Point.isLeaving, hgoes])
        | true =>
            have hturn : (v.quitCheck false).game = v.game := by
              unfold Locals.quitCheck
              split <;> rfl
            refine .inr (.inr ?_)
            unfold Point.distance
            dsimp only
            rw [hgoes, hturn, if_pos rfl]
            split <;> decide
  | _ => cases hloop

/-- When the website polls in vain, an operation does some of what is to be done. -/
lemma togo_operate (h : InTouch folder (.polling shown) p)
    (hai : readFromFile (folder .aiMove) = []) (hloop : p.isLeaving = false) (site : Site) :
    togo (((operate rands p folder).1, site), (operate rands p folder).2) + 1 ≤ p.distance := by
  unfold togo pending
  cases hop : (operate rands p folder).1 with
  | none => exact distance_pos hloop
  | some p' =>
      rcases distance_operate h hai hloop hop with hleaving | hmove | hnearer
      · simpa [hleaving] using distance_pos hloop
      · simpa [hmove] using distance_pos hloop
      · dsimp only
        split
        · exact hnearer
        · exact distance_pos hloop

end

/-! ## Runs -/

/-- A game in which a website polls whenever the program owes a move. -/
def Polled (x : (Option Point × Site) × Folder) : Prop :=
  InPlay x ∧ (pending x = true → ∃ shown, x.1.2 = .polling shown)

lemma pending_iff {x : (Option Point × Site) × Folder} : pending x = true ↔
    (∃ p, x.1.1 = some p ∧ p.isLeaving = false) ∧ readFromFile (x.2 .aiMove) = [] := by
  simp [pending, Option.any_eq_true]

lemma isRunning_of_loop {p : Point} (h : p.isLeaving = false) : isRunning (some p) = true := by
  cases p with
  | ended v => cases h
  | _ => rfl

section Careful

variable {habits : Habits} (hcareful : habits.Careful)
include hcareful

/-- No program is started while one owes a move, and the website goes on polling. -/
lemma polled_step {x x' : (Option Point × Site) × Folder} {a : GameAction} (hx : Polled x)
    (hpending : pending x = true) (hstep : gameStep habits x.1 x.2 a = some x') :
    Polled x' ∧ togo x' + (isOperate a).toNat ≤ togo x := by
  obtain ⟨hplay, hpolls⟩ := hx
  obtain ⟨shown, hsite⟩ := hpolls hpending
  obtain ⟨⟨p, hpoint, hloop⟩, hai⟩ := pending_iff.1 hpending
  obtain ⟨⟨point, site⟩, folder⟩ := x
  obtain rfl : point = some p := hpoint
  obtain rfl : site = .polling shown := hsite
  have hnet : ∀ choice db, a ≠ .start choice db := by
    rintro choice db rfl
    have hidle : isRunning (some p) = false := (gameStep_start hstep).1
    rw [isRunning_of_loop hloop] at hidle
    cases hidle
  have hplay' := inPlay_step hcareful hplay
    (fun choice db ha => absurd ha (hnet choice db)) hstep
  have htogo : togo ((some p, .polling shown), folder) = p.distance := by
    rw [togo, hpending]
    rfl
  cases a with
  | start choice db => exact absurd rfl (hnet choice db)
  | operate rands =>
      obtain rfl := Option.some.inj hstep
      rw [htogo]
      exact ⟨⟨hplay', fun _ => ⟨shown, rfl⟩⟩, togo_operate (hplay p rfl).1 hai hloop _⟩
  | kill =>
      obtain rfl := Option.some.inj hstep
      exact ⟨⟨hplay', fun _ => ⟨shown, rfl⟩⟩, Nat.zero_le _⟩
  | site x =>
      have hsame : siteStep habits x (.polling shown) folder = (.polling shown, folder) :=
        siteStep_polling hcareful x hai
      have hx' : ((some p, (siteStep habits x (.polling shown) folder).1),
        (siteStep habits x (.polling shown) folder).2) = x' := Option.some.inj hstep
      rw [hsame] at hx'
      obtain rfl := hx'
      exact ⟨⟨hplay', fun _ => ⟨shown, rfl⟩⟩, le_rfl⟩
  | quit =>
      obtain rfl := Option.some.inj hstep
      exact ⟨⟨hplay', fun _ => ⟨shown, rfl⟩⟩, le_rfl⟩

/-- **The AI's move comes.**  From any state that the games have got to, while the website of a user
polls, the program for this user does at most thirteen operations without the AI's move in the file
and without leaving its loop, if the website is careful. -/
theorem move_answered {s₀ s₁ s : Games} {before after : List (Games × (ℤ × GameAction))}
    (hidle : ∀ u, (s₀.1 u).1 = none) (hbefore : Run (gamesStep habits) s₀ before s₁)
    (hnets : ∀ t u choice db, (t, (u, GameAction.start choice db)) ∈ before → LegalNet choice db)
    {u : ℤ} {shown : Board 3} (hpolls : (s₁.1 u).2 = .polling shown)
    (hafter : Run (gamesStep habits) s₁ after s)
    (hpending : ∀ x ∈ after, x.2.1 = u → pending (seen userFiles u x.1) = true) :
    total (fun _ a => (isOperate a).toNat) (own userFiles u after) ≤ 13 := by
  have hinit : Polled (seen userFiles u s₁) :=
    ⟨inPlay_of_run hcareful (hidle u) hbefore hnets, fun _ => ⟨shown, hpolls⟩⟩
  have hok : All (fun x _ => pending x = true) (own userFiles u after) := by
    intro x hx
    obtain ⟨t, ht, hseen⟩ := mem_own.1 hx
    rw [← hseen]
    exact hpending _ ht rfl
  have hbudget := @Run.budget _ _ (alone (gameStep habits)) _ (fun x _ => pending x = true) Polled
    togo (fun _ a => (isOperate a).toNat) (fun _ _ => 0) hinit
    (fun _ _ _ hx hok hstep => (polled_step hcareful hx hok hstep).1)
    (fun _ _ _ hx hok hstep => (polled_step hcareful hx hok hstep).2)
    _ _ (Run.alone hafter u) hok
  have hfirst := togo_le (seen userFiles u s₁)
  rw [total_zero] at hbudget
  omega

end Careful

/-- The website polls for the AI's move. -/
def Site.polls : Site → Bool
  | .polling _ => true
  | _ => false

/-- Two users start games.  The first one's AI moves and the user answers, while the second one's
AI is about to write its move. -/
def sampleGames : List (ℤ × GameAction) :=
  [(1, .start 1 ⟨false, true, none⟩), (2, .start 1 ⟨false, true, none⟩), (1, .operate [4]),
    (1, .operate []), (2, .operate [0]), (1, .operate []), (1, .site (0, 0)), (2, .operate []),
    (1, .site (0, 0)), (1, .operate []), (1, .operate []), (1, .site (0, 0)), (1, .site (0, 0)),
    (2, .site (0, 0)), (1, .site (0, 0)), (1, .operate [])]

/-- The program reads the user's move and the AI answers, while the website polls. -/
def sampleAnswer : List (ℤ × GameAction) :=
  [(1, .operate []), (1, .operate []), (1, .site (0, 0)), (2, .operate []), (1, .operate []),
    (1, .operate []), (1, .operate []), (1, .operate []), (1, .operate []), (1, .operate [0]),
    (1, .operate []), (1, .site (0, 0)), (1, .operate [])]

/-- A run in which the program owes a move to the user 1 up to the end, when the move is there. -/
def answers (steps : List (Games × (ℤ × GameAction))) (s : Games) : Bool :=
  (∀ x ∈ steps, x.2.1 = 1 → pending (seen userFiles 1 x.1) = true) ∧
    readFromFile (s.2 (path 1 .aiMove)) ≠ [] ∧
    0 < total (fun _ a => (isOperate a).toNat) (own userFiles 1 steps)

theorem move_answered_sample : ∃ before s₁ after s,
    Run (gamesStep ⟨true, true, true⟩) noGames before s₁ ∧
    Run (gamesStep ⟨true, true, true⟩) s₁ after s ∧ readFromFile (s.2 (path 1 .aiMove)) ≠ [] ∧
    0 < total (fun _ a => (isOperate a).toNat) (own userFiles 1 after) ∧
    total (fun _ a => (isOperate a).toNat) (own userFiles 1 after) ≤ 13 := by
  obtain ⟨before, s₁, hbefore, hnew, hs₁⟩ := @exists_run_all _ _ (gamesStep ⟨true, true, true⟩)
    noGames sampleGames (fun _ a => a.2.new = true) (fun a ha _ => by revert a; decide)
    (fun _ s₁ => (s₁.1 1).2.polls ∧
      (exec (gamesStep ⟨true, true, true⟩) s₁ sampleAnswer).any fun r => answers r.1 r.2)
    (by decide +kernel)
  obtain ⟨hpolls, hexec⟩ := of_decide_eq_true hs₁
  obtain ⟨after, s, hafter, hs⟩ :=
    exists_run (gamesStep ⟨true, true, true⟩) s₁ sampleAnswer answers hexec
  obtain ⟨hpending, hmove, hpos⟩ := of_decide_eq_true hs
  cases hsite : (s₁.1 1).2 with
  | polling shown =>
      exact ⟨before, s₁, after, s, hbefore, hafter, hmove, hpos,
        move_answered ⟨rfl, rfl, rfl⟩ (fun _ => rfl) hbefore
          (fun _ _ _ _ => legalNet_of_new hnew) hsite hafter hpending⟩
  | _ => simp [hsite, Site.polls] at hpolls

end NeuralTicTacToe.Website
