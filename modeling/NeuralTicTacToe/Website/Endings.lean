import NeuralTicTacToe.Website.Inbox

/-!
# Every program comes to its end

A program that finds no move file gives up after five minutes.  Finding one makes it wait for five
minutes more, even if the file is empty, which it can stay.  So a program for a user can be made to
do more operations in three ways only: it is started again, it finds a move file, or a move is sent
that it refuses.  All its operations are paid for by these (`programs_end`).

The wait of half a second is what counts: `patience` tells how many of them are left.
-/

namespace NeuralTicTacToe.Website

open Runs Territories

/-! ## What is left to do -/

/-- How many times the program can still wait. -/
def Locals.patience (v : Locals) : ℕ := 600 - v.totalWait / 500000

/-- The operations that are left when no move file is found from here on, six for each wait. -/
def Point.left : Point → ℕ
  | .ended _ => 0
  | .closeGame _ => 1
  | .openGame _ => 2
  | .loop v => if v.goesOn then 6 * (v.patience - 1) + 10 else 3
  | .removeQuit _ => 4
  | .quitExists v => if (v.quitCheck false).goesOn then 6 * v.patience + 5 else 5
  | .closeBoard v | .removeMove v _ => 6 * v.patience + 6
  | .openBoard v | .readMove v => 6 * v.patience + 7
  | .moveExists v | .closeAiMove v _ => 6 * v.patience + 8
  | .openAiMove v _ => 6 * v.patience + 9

/-- The step starts the program. -/
def starts (_ : Option Point × Folder) : UserAction → ℕ
  | .start _ _ => 1
  | _ => 0

/-- The step finds a move file, which may be empty. -/
def finds (s : Option Point × Folder) : UserAction → ℕ
  | .operate _ => match s.1 with
    | some (.moveExists _) => (s.2.checkFileExists .playerMove).toNat
    | _ => 0
  | _ => 0

section

variable {v w : Locals} {p p' : Point} {folder : Folder}

lemma patience_le (v : Locals) : v.patience ≤ 600 := Nat.sub_le _ _

lemma patience_congr (h : w.totalWait = v.totalWait) : w.patience = v.patience := by
  rw [Locals.patience, h, Locals.patience]

lemma patience_wait (h : w.totalWait = v.totalWait + 500000) : w.patience = v.patience - 1 := by
  unfold Locals.patience
  omega

@[simp] lemma totalWait_quitCheck (v : Locals) (quits : Bool) :
    (v.quitCheck quits).totalWait = v.totalWait := by
  unfold Locals.quitCheck
  split
  · rfl
  · rfl

/-- The quit check ends the loop when the program has waited long enough. -/
lemma patience_of_goesOn (h : (v.quitCheck false).goesOn = true) : 1 ≤ v.patience := by
  have hlt : v.totalWait < 300000000 := by
    by_contra hge
    rw [Locals.quitCheck, if_pos (by simpa using Nat.le_of_not_lt hge)] at h
    simp [Locals.goesOn] at h
  unfold Locals.patience
  omega

lemma left_le (p : Point) : p.left ≤ 3609 := by
  cases p
  all_goals
    have hle := patience_le ‹Locals›
    simp only [Point.left]
  case loop => split <;> omega
  case quitExists => split <;> omega
  all_goals omega

lemma left_pos (h : isRunning (some p) = true) : 1 ≤ p.left := by
  cases p
  all_goals simp only [Point.left]
  case ended => cases h
  case loop => split <;> omega
  case quitExists => split <;> omega
  all_goals omega

lemma left_quitExists_of_decided (h : v.Decided) : (Point.quitExists v).left = 5 := by
  rw [Point.left, h.ends]
  rfl

lemma left_quitExists_le (v : Locals) : (Point.quitExists v).left ≤ 6 * v.patience + 5 := by
  rw [Point.left]
  split
  · exact le_rfl
  · exact Nat.le_add_left _ _

/-- An operation leads nearer to the end, but for the move it takes and the move file it finds. -/
lemma Leads.left_lt (h : Leads folder p p') (hrunning : isRunning (some p) = true)
    (rands : List ℕ) : p'.left + 1 ≤ p.left + 2 * (hasRead (some p)).toNat +
      3600 * finds (some p, folder) (.operate rands) := by
  cases h with
  | bodyQuit hgoes hover =>
      rw [left_quitExists_of_decided hover]
      simp only [Point.left, hgoes, if_true]
      omega
  | bodyMove hgoes hwait =>
      simp only [Point.left, patience_wait hwait, hgoes, if_true]
      omega
  | bodyAi hgoes hwait =>
      simp only [Point.left, patience_wait hwait, hgoes, if_true]
      omega
  | finish hends =>
      simp only [Point.left, hends, Bool.false_eq_true, if_false]
      omega
  | @wait v w hwait =>
      cases hexists : folder.checkFileExists .playerMove with
      | true =>
          -- the program waits for five minutes more
          have hle := patience_le w
          simp only [Point.left, finds, hexists, Bool.toNat_true]
          omega
      | false =>
          rw [hexists] at hwait
          simp only [Point.left, patience_congr hwait]
          omega
  | full hover =>
      rw [left_quitExists_of_decided hover]
      simp only [Point.left]
      omega
  | @noMove v w hsame =>
      have hle := left_quitExists_le w
      rw [patience_congr hsame] at hle
      simp only [Point.left] at hle ⊢
      omega
  | move _ =>
      simp only [Point.left]
      omega
  | place hsame =>
      simp only [Point.left, patience_congr hsame, hasRead, Bool.toNat_true]
      omega
  | refuse =>
      simp only [Point.left, hasRead, Bool.toNat_true]
      omega
  | refuseFull hover =>
      rw [left_quitExists_of_decided hover]
      simp only [Point.left]
      omega
  | openAi =>
      simp only [Point.left]
      omega
  | closeAi hsame =>
      simp only [Point.left, patience_congr hsame]
      omega
  | openBoard =>
      simp only [Point.left]
      omega
  | @closeBoard v w hsame =>
      have hle := left_quitExists_le w
      rw [patience_congr hsame] at hle
      simp only [Point.left] at hle ⊢
      omega
  | quit _ =>
      simp only [Point.left]
      split <;> omega
  | @noQuit v _ =>
      cases hgoes : (v.quitCheck false).goesOn with
      | true =>
          have hpos := patience_of_goesOn hgoes
          simp only [Point.left, hgoes, if_true, patience_congr (totalWait_quitCheck v false)]
          omega
      | false =>
          simp only [Point.left, hgoes, Bool.false_eq_true, if_false]
          omega
  | leave hends =>
      simp only [Point.left, hends, Bool.false_eq_true, if_false]
      omega
  | openGame =>
      simp only [Point.left]
      omega
  | closeGame =>
      simp only [Point.left]
      omega
  | ended => cases hrunning

end

/-! ## The server -/

/-- **An operation is paid for.** -/
lemma paid_step {s s' : Option Point × Folder} {a : UserAction}
    (h : userStep s.1 s.2 a = some s') :
    work Point.left s' + works s a ≤ work Point.left s +
      (3604 * starts s a + 3600 * finds s a + 2 * sends s a) := by
  refine work_step (fun _ => rfl) (fun _ => left_pos) ?_ ?_ h
  · rintro choice db rfl l
    have hle := patience_le l.locals
    simp only [Point.left, starts]
    split <;> omega
  · rintro rands p p' rfl hp hrunning hleads
    obtain ⟨point, folder⟩ := s
    obtain rfl : point = some p := hp
    have hleads : Leads folder p p' := hleads
    have hlt := hleads.left_lt hrunning rands
    simp only [starts]
    omega

/-- **Every program comes to its end**, in every interleaving, unless it is started again or finds
a move file again and again: the operations of the programs for a user are bounded by how often this
happens, and two more for each move that is sent, which may be refused. -/
theorem programs_end {s₀ s : Server} {steps : List (Server × (ℤ × UserAction))}
    (hrun : Run serverStep s₀ steps s) (u : ℤ) :
    total works (own userFiles u steps) ≤ 3611 + (3604 * total starts (own userFiles u steps) +
      3600 * total finds (own userFiles u steps) + 2 * total sends (own userFiles u steps)) := by
  have hbudget := @Run.budget _ _ (alone userStep) _ (fun _ _ => True) (fun _ => True)
    (work Point.left) works (fun s a => 3604 * starts s a + 3600 * finds s a + 2 * sends s a)
    trivial (fun _ _ _ _ _ _ => trivial) (fun _ _ _ _ _ hstep => paid_step hstep) _ _
    (Run.alone hrun u) fun _ _ => trivial
  have hinit := work_le left_le (seen userFiles u s₀)
  rw [total_add, total_add, total_mul, total_mul, total_mul] at hbudget
  omega

theorem programs_end_sample : ∃ steps s, Run serverStep noPrograms steps s ∧
    total starts (own userFiles 1 steps) = 2 ∧ total finds (own userFiles 1 steps) = 2 ∧
    total works (own userFiles 1 steps) ≤ 3611 + (3604 * total starts (own userFiles 1 steps) +
      3600 * total finds (own userFiles 1 steps) + 2 * total sends (own userFiles 1 steps)) := by
  obtain ⟨steps, s, hrun, hs⟩ := exists_run serverStep noPrograms sampleMoves
    (fun steps _ => total starts (own userFiles 1 steps) = 2 ∧
      total finds (own userFiles 1 steps) = 2) (by decide +kernel)
  obtain ⟨hstarts, hfinds⟩ := of_decide_eq_true hs
  exact ⟨steps, s, hrun, hstarts, hfinds, programs_end hrun 1⟩

end NeuralTicTacToe.Website
