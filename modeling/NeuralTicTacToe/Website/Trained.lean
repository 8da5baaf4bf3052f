import NeuralTicTacToe.Website.Policy
import NeuralTicTacToe.Website.SaveAgain

/-!
# Playing with a net that was saved

A net is saved, and a program that starts later loads it and plays.  If its weights are multiples
of `1 / 64`, they survive the six decimals of a row, and the loaded net is a copy of the saved one
whose nodes lie elsewhere (`Copies`).  A copy plays as its original does, so the games the website
then shows are those in which the AI plays by the ratings of the saved net (`trained_play_iff`).
-/

namespace NeuralTicTacToe.NN

open Relation

/-- `nn'` consists of copies of the nodes of `nn`, with their boards and ratios. -/
structure Copies (nn nn' : NN ℤ) (f : ℕ → ℕ) : Prop extends Relocates nn nn' f where
  board_eq : ∀ {p}, nn.Reaches p → (nn'.node (f p)).board = (nn.node p).board
  ratio_eq : ∀ {p}, nn.Reaches p → getRatio (nn'.node (f p)) = getRatio (nn.node p)
  lt_size : ∀ {p}, nn.Reaches p → f p < nn'.size
  exists_of_lt : ∀ {q}, q < nn'.size → ∃ p, nn.Reaches p ∧ f p = q

lemma Carries.reaches {nn : NN ℤ} {h : List (Board 3)} {p : ℕ} (hp : nn.Carries h p) :
    nn.Reaches p := by
  induction hp with
  | root => exact .refl
  | snoc _ hedge ih => exact ih.child hedge.1

/-- Nodes whose ratios do not fall stay above the bound. -/
lemma Playable.mono {nn nn' : NN ℤ} (hp : nn.Playable) (h : nn.SameShape nn')
    (hratio : ∀ p, getRatio (nn.node p) ≤ getRatio (nn'.node p)) : nn'.Playable := by
  have hfst : ∀ p, (nn'.children p).map Prod.fst = (nn.children p).map Prod.fst := by
    intro p
    simp [children, h.next_eq, h.board_eq, Function.comp_def]
  refine ⟨h.branching hp.branching, by rw [h.board_eq, h.start_eq, hp.start_board], ?_, ?_⟩
  · intro g p hc heven
    rw [h.carries_eq] at hc
    rw [hfst, h.board_eq, children_eq_nil_iff, h.next_eq, ← children_eq_nil_iff]
    refine (hp.ai hc heven).imp_right (And.imp_right ?_)
    rintro ⟨x, hx, hge⟩
    obtain ⟨c, hmem, rfl⟩ := List.mem_map.1 hx
    refine ⟨_, List.mem_map.2 ⟨c, ?_, rfl⟩, hge.trans (hratio c)⟩
    rwa [h.next_eq]
  · intro g p hc hodd
    rw [h.carries_eq] at hc
    rw [hfst, h.board_eq]
    exact hp.player hc hodd

/-! ## Copies -/

namespace Copies

variable {nn nn' : NN ℤ} {f : ℕ → ℕ} (h : Copies nn nn' f)
include h

lemma exists_child {q d : ℕ} (hd : d ∈ (nn'.node q).next) :
    ∃ p c, nn.Reaches p ∧ f p = q ∧ c ∈ (nn.node p).next ∧ f c = d := by
  obtain ⟨p, hp, rfl⟩ := h.exists_of_lt (lt_size_of_mem_next hd)
  rw [h.next_eq hp] at hd
  obtain ⟨c, hc, rfl⟩ := List.mem_map.1 hd
  exact ⟨p, c, hp, rfl, hc, rfl⟩

lemma branching (hb : nn.Branching) : nn'.Branching where
  start_lt := h.start_eq ▸ h.lt_size .refl
  child_lt hd := by
    obtain ⟨p, c, hp, _, hc, rfl⟩ := h.exists_child hd
    exact h.lt_size (hp.child hc)
  start_no_parent := by
    intro q hd
    obtain ⟨p, c, hp, _, hc, heq⟩ := h.exists_child hd
    rw [h.start_eq] at heq
    rw [h.inj (hp.child hc) .refl heq] at hc
    exact hb.start_no_parent hc
  parent_unique := by
    intro q r d hq hr
    obtain ⟨p, c, hp, rfl, hc, rfl⟩ := h.exists_child hq
    obtain ⟨p', c', hp', rfl, hc', heq⟩ := h.exists_child hr
    rw [h.inj (hp'.child hc') (hp.child hc) heq] at hc'
    rw [hb.parent_unique hc hc']

/-- Copies carry the histories of their originals. -/
lemma carries_iff {g : List (Board 3)} {q : ℕ} :
    nn'.Carries g q ↔ ∃ p, nn.Carries g p ∧ f p = q := by
  constructor
  · intro hq
    induction hq with
    | root => exact ⟨nn.start, .root, h.start_eq.symm⟩
    | snoc _ hedge ih =>
        obtain ⟨p, hp, rfl⟩ := ih
        obtain ⟨hd, rfl⟩ := hedge
        rw [h.next_eq (Carries.reaches hp)] at hd
        obtain ⟨c, hc, rfl⟩ := List.mem_map.1 hd
        rw [h.board_eq ((Carries.reaches hp).child hc)]
        exact ⟨c, Carries.child hp hc, rfl⟩
  · rintro ⟨p, hp, rfl⟩
    induction hp with
    | root => exact h.start_eq ▸ .root
    | snoc hp hedge ih =>
        obtain ⟨hc, rfl⟩ := hedge
        rw [← h.board_eq ((Carries.reaches hp).child hc)]
        refine Carries.child ih ?_
        rw [h.next_eq (Carries.reaches hp)]
        exact List.mem_map_of_mem hc

lemma children_eq {p : ℕ} (hp : nn.Reaches p) : nn'.children (f p) = nn.children p := by
  rw [children, h.next_eq hp, List.map_map]
  refine List.map_congr_left fun c hc => ?_
  rw [Function.comp_apply, h.board_eq (hp.child hc), h.ratio_eq (hp.child hc)]

lemma playable (hplay : nn.Playable) : nn'.Playable where
  branching := h.branching hplay.branching
  start_board := by rw [h.start_eq, h.board_eq .refl, hplay.start_board]
  ai hq heven := by
    obtain ⟨p, hp, rfl⟩ := h.carries_iff.1 hq
    rw [h.children_eq hp.reaches, h.board_eq hp.reaches]
    exact hplay.ai hp heven
  player hq hodd := by
    obtain ⟨p, hp, rfl⟩ := h.carries_iff.1 hq
    rw [h.children_eq hp.reaches, h.board_eq hp.reaches]
    exact hplay.player hp hodd

lemma distinct (hd : nn.Distinct) : nn'.Distinct := by
  intro q
  rcases Nat.lt_or_ge q nn'.size with hlt | hge
  · obtain ⟨p, hp, rfl⟩ := h.exists_of_lt hlt
    rw [h.next_eq hp, List.map_map]
    convert hd p using 1
    exact List.map_congr_left fun c hc => h.board_eq (hp.child hc)
  · rw [node_of_size_le nn' hge]
    exact List.nodup_nil

/-- A copy has the rating of its original. -/
lemma rates {rate : List (Board 3) → ℚ} (hr : nn.Rates rate) : nn'.Rates rate where
  ratio_eq hq := by
    obtain ⟨p, hp, rfl⟩ := h.carries_iff.1 hq
    rw [h.ratio_eq hp.reaches, hr.ratio_eq hp]
  rate_eq_zero hnone := hr.rate_eq_zero fun p hp => hnone (f p) (h.carries_iff.2 ⟨p, hp, rfl⟩)

end Copies

/-! ## Loading a saved net -/

/-- A tree whose weights are multiples of `1 / 64` is loaded as a copy after it was saved, if no
older row holds another board. -/
lemma exists_copy {nn : NN ℤ} (ht : nn.IsTree) (hint : nn.IntIds)
    (hweights : ∀ p, nn.Reaches p → ∀ w, ∃ k : ℤ, (nn.node p).weight w = k / 64) {file : File}
    (hopens : file.opens = true) (hagree : BoardsAgree nn (file.table.getD Table.empty)) :
    ∃ file' nn' f, nn.saveNet file = some file' ∧ loadNet file' = some (some nn') ∧
      Copies nn nn' f := by
  have hboard : ∀ p, nn.Reaches p →
      matrixBoard 3 (boardAfter nn (file.table.getD Table.empty) p) = some (nn.node p).board :=
    fun p hp => by rw [boardsAgree_iff.1 hagree p hp, matrixBoard_stringBoard]
  obtain ⟨file', nn', f, hsave, hload, hf, hafter, hweight, _, _, hsize, hcover⟩ :=
    exists_reload ht hint hopens fun p hp => Option.isSome_of_eq_some (hboard p hp)
  refine ⟨file', nn', f, hsave, hload, hf, fun {p} hp => ?_, fun {p} hp => ?_,
    fun {p} hp => hsize p hp, fun {q} hq => hcover q hq⟩
  · exact (Option.some.inj ((hboard p hp).symm.trans (hafter p hp))).symm
  · refine getRatio_congr fun w => ?_
    obtain ⟨k, hk⟩ := hweights p hp w
    rw [hweight p hp, hk, sixDecimals_div_sixtyFour]

end NeuralTicTacToe.NN

namespace NeuralTicTacToe.Website

open NN Runs

/-- A game with a copy of a net starts out with the rating of the net. -/
lemma onPath_copy {nn nn' : NN ℤ} {f : ℕ → ℕ} (h : Copies nn nn' f) (hplay : nn.Playable)
    (hdistinct : nn.Distinct) {choice : ℤ} {db : File} {files : Files} {l₀ : Loop}
    (henter : enter TicTacToe.init choice db files = some l₀)
    (hnn : l₀.game.nn = ({ nn' with piece := aiPiece } : NN ℤ).resetPtr) :
    OnPath nn.rating [] l₀ := by
  have hpiece := sameShape_piece nn' aiPiece
  have hshape := hpiece.trans (sameShape_resetPtr { nn' with piece := aiPiece })
  have hplay' := ((h.playable hplay).setPiece aiPiece).resetPtr
  refine ⟨.enter henter (hnn ▸ hplay'), hnn ▸ ⟨hplay'.branching, ?_, ?_, .root⟩⟩
  · exact (h.distinct hdistinct).sameShape hshape
  · exact (h.rates (rates_rating hdistinct)).sameShape hshape fun _ => rfl

/-- **A saved net is played as it was saved**, if its weights are multiples of `1 / 64`: once it is
saved and loaded by another program, the games the website shows are those in which the AI plays by
the ratings of the net. -/
theorem trained_play_iff {nn : NN ℤ} (ht : nn.IsTree) (hint : nn.IntIds)
    (hweights : ∀ p, nn.Reaches p → ∀ w, ∃ k : ℤ, (nn.node p).weight w = k / 64)
    (hplay : nn.Playable) (hdistinct : nn.Distinct) {db : File} (hopens : db.opens = true)
    (hagree : BoardsAgree nn (db.table.getD Table.empty)) {choice : ℤ} (hchoice : choice ≠ 1)
    (files : Files) :
    ∃ db' l₀, nn.saveNet db = some db' ∧ enter TicTacToe.init choice db' files = some l₀ ∧
      ∀ path, (∃ steps l, Run iteration l₀ steps l ∧ shown steps l = path) ↔
        Relation.ReflTransGen (Turn nn.rating) [] path := by
  obtain ⟨db', nn', f, hsave, hload, hcopies⟩ := exists_copy ht hint hweights hopens hagree
  have henter : enter TicTacToe.init choice db' files = some
      { game := { TicTacToe.init with nn := { nn' with piece := aiPiece } }.resetGame
        files := files } := by
    unfold enter
    rw [if_neg hchoice, show TicTacToe.init.nn.loadNetFrom db' = loadNet db' from rfl, hload]
    rfl
  have hpath := onPath_copy hcopies hplay hdistinct henter rfl
  exact ⟨db', _, hsave, henter, hpath.shown_iff (lively_enter henter)⟩

/-- A net after its first move, to the middle. -/
def openedNet : NN ℤ := (((freshWith aiPiece : NN ℤ).aiMoveHere [4]).map Prod.fst).getD NN.fresh

/-- The net once it has won with that. -/
def wonNet : NN ℤ := openedNet.goodOutcome.getD NN.fresh

lemma openedNet_spec : Numbered openedNet ∧ openedNet.Distinct ∧ openedNet.Playable := by
  have hplay : (freshWith aiPiece : NN ℤ).Playable := Playable.fresh.setPiece aiPiece
  obtain ⟨⟨nn, b⟩, hmove⟩ : ∃ r, (freshWith aiPiece : NN ℤ).aiMoveHere [4] = some r :=
    Option.isSome_iff_exists.1 (by decide +kernel)
  have hopened : openedNet = nn := by
    rw [openedNet, hmove]
    rfl
  obtain ⟨t, hadv, _⟩ := aiMove_advance (trie_freshWith aiPiece) (by decide) hmove
  rw [hopened]
  refine ⟨((Numbered.freshWith aiPiece).aiMove hmove).1,
    (hadv.trie (trie_freshWith aiPiece)).distinct, ?_⟩
  exact ((Position.start hplay rfl).aiMove hplay rfl (by decide) hmove).1

lemma wonNet_spec : Numbered wonNet ∧ wonNet.Distinct ∧ wonNet.Playable := by
  obtain ⟨hnum, hdistinct, hplay⟩ := openedNet_spec
  obtain ⟨nn, hout⟩ : ∃ nn, openedNet.goodOutcome = some nn :=
    Option.isSome_iff_exists.1 (by decide +kernel)
  have hwon : wonNet = nn := by
    rw [wonNet, hout]
    rfl
  have hshape : openedNet.SameShape wonNet := hwon ▸ (outcome_frame hout).1.toSameShape
  have hratio : ∀ p < 10, getRatio (openedNet.node p) ≤ getRatio (wonNet.node p) := by
    decide +kernel
  have hsize : openedNet.size = 10 := by decide +kernel
  refine ⟨hwon ▸ (hnum.outcome hout).1, hdistinct.sameShape hshape, hplay.mono hshape fun p => ?_⟩
  rcases Nat.lt_or_ge p 10 with hlt | hge
  · exact hratio p hlt
  · rw [node_of_size_le _ (hsize.trans_le hge), node_of_size_le]
    exact hshape.size_eq.trans_le (hsize.trans_le hge)

theorem trained_play_iff_sample : ∃ db' l₀, wonNet.saveNet ⟨false, true, none⟩ = some db' ∧
    enter TicTacToe.init 2 db' {} = some l₀ ∧
      ∀ path, (∃ steps l, Run iteration l₀ steps l ∧ shown steps l = path) ↔
        Relation.ReflTransGen (Turn wonNet.rating) [] path := by
  obtain ⟨hnum, hdistinct, hplay⟩ := wonNet_spec
  have hden : ∀ p < wonNet.size, ∀ w ∈ [Weight.good, .bad, .okay],
      ((wonNet.node p).weight w * 64).den = 1 := by
    decide +kernel
  have hweights : ∀ p, wonNet.Reaches p → ∀ w, ∃ k : ℤ, (wonNet.node p).weight w = k / 64 := by
    intro p hp w
    exact exists_div_sixtyFour (hden p (hnum.tree.reaches_iff.1 hp) w (by cases w <;> simp))
  exact trained_play_iff hnum.isTree (hnum.intIds (by decide +kernel)) hweights hplay hdistinct rfl
    (fun row hrow => absurd hrow List.not_mem_nil) (by decide) {}

end NeuralTicTacToe.Website
