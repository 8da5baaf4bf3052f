import NeuralTicTacToe.Net.Alternation
import NeuralTicTacToe.Net.BestMove

/-!
# Trees a game can be played in

The game trees AI #1 plays with: an AI node, at an even depth, has no children or exactly its
successors, one of them not rated below the bound of `AIMove`, and the children of a player node
are successors too (`Playable`).  In such a tree every `AIMove` and every `playerMove` of a legal
game leads to a successor of the board played on, and keeps the tree playable.
-/

namespace NeuralTicTacToe.NN

variable {ι : Type} [NodeIds ι]

/-- The boards and the ratios of the children of a node. -/
def children (nn : NN ι) (p : ℕ) : List (Board 3 × ℚ) :=
  (nn.node p).next.map fun c => ((nn.node c).board, getRatio (nn.node c))

/-- A tree that starts with the empty board, whose AI nodes have no children or exactly the
successors of their boards, not all of them rated below the bound, and whose player nodes have
successors only. -/
structure Playable (nn : NN ι) : Prop where
  branching : nn.Branching
  start_board : (nn.node nn.start).board = createMatrix 3
  ai : ∀ {h p}, nn.Carries h p → h.length % 2 = 0 → nn.children p = [] ∨
    (∀ b, b ∈ (nn.children p).map Prod.fst ↔ Places aiPiece (nn.node p).board b) ∧
      ∃ x ∈ nn.children p, -100 ≤ x.2
  player : ∀ {h p}, nn.Carries h p → h.length % 2 = 1 →
    ∀ b ∈ (nn.children p).map Prod.fst, Places playerPiece (nn.node p).board b

variable {nn nn' : NN ι}

/-! ## Reading the children -/

lemma mem_map_children {p : ℕ} {b : Board 3} :
    b ∈ (nn.children p).map Prod.fst ↔ ∃ c ∈ (nn.node p).next, (nn.node c).board = b := by
  simp [children]

lemma children_eq_nil_iff {p : ℕ} : nn.children p = [] ↔ (nn.node p).next = [] :=
  List.map_eq_nil_iff

lemma children_moveTo {t : ℕ} (ht : t < nn.size) (p : ℕ) :
    (nn.moveTo t).children p = nn.children p := by
  unfold children
  rw [moveTo_next _ ht]
  refine List.map_congr_left fun c _ => ?_
  rw [moveTo_board _ ht, getRatio_congr fun w => moveTo_weight _ ht c w]

/-- Growth adds children with ratio `0` to the position. -/
lemma children_grow (hb : nn.Branching) (hptr : nn.ptr < nn.size) (bs : List (Board 3)) (p : ℕ) :
    (nn.grow bs).children p =
      nn.children p ++ if p = nn.ptr then bs.map fun b => (b, 0) else [] := by
  have hratio : ∀ c, getRatio ((nn.grow bs).node c) = getRatio (nn.node c) :=
    fun c => getRatio_congr fun w => grow_weight hptr c w
  have hold : ((nn.node p).next.map fun c =>
      (((nn.grow bs).node c).board, getRatio ((nn.grow bs).node c))) = nn.children p := by
    refine List.map_congr_left fun c hc => ?_
    rw [grow_board_old hptr (hb.child_lt hc), hratio]
  unfold children at hold ⊢
  rw [grow_next hptr]
  split
  · rw [List.map_append, hold]
    have hnew : ∀ c ∈ List.range' nn.size bs.length,
        (((nn.grow bs).node c).board, getRatio ((nn.grow bs).node c)) =
          (((nn.grow bs).node c).board, (0 : ℚ)) := by
      intro c hc
      rw [hratio, node_of_size_le nn (List.mem_range'_1.1 hc).1, getRatio_default]
    have hboards := congrArg (List.map fun b => (b, (0 : ℚ))) (@map_board_grow _ _ nn bs hptr)
    rw [List.map_map] at hboards
    rw [List.map_congr_left hnew]
    exact congrArg _ hboards
  · rw [hold, List.append_nil]

/-! ## What keeps a tree playable -/

/-- A node of a grown tree is an old one, with its history and board, or has no children. -/
lemma cases_grow (hb : nn.Branching) (hptr : nn.ptr < nn.size) {bs : List (Board 3)}
    {h : List (Board 3)} {p : ℕ} (hc : (nn.grow bs).Carries h p) :
    nn.Carries h p ∧ ((nn.grow bs).node p).board = (nn.node p).board ∨
      (nn.grow bs).children p = [] := by
  rcases Nat.lt_or_ge p nn.size with hlt | hge
  · refine .inl ⟨?_, grow_board_old hptr hlt⟩
    rcases (carries_grow_iff hb hptr).1 hc with hold | ⟨g, b, _, ⟨i, _, rfl⟩, _⟩
    · exact hold
    · exact absurd hlt (by omega)
  · refine .inr (children_eq_nil_iff.2 ?_)
    rw [grow_next hptr, if_neg (by omega), node_of_size_le nn hge]
    rfl

namespace Playable

lemma fresh : Playable (NN.fresh : NN ι) where
  branching := tree_fresh.branching
  start_board := rfl
  ai _ _ := .inl (children_eq_nil_iff.2 (fresh_next _))
  player _ _ b hb := by
    rw [mem_map_children] at hb
    obtain ⟨c, hc, _⟩ := hb
    rw [fresh_next] at hc
    cases hc

/-- What changes neither boards, child lists nor ratios keeps a tree playable. -/
lemma keep (hp : nn.Playable) (h : nn.SameShape nn')
    (hchildren : ∀ p, nn'.children p = nn.children p) : nn'.Playable where
  branching := h.branching hp.branching
  start_board := by rw [h.board_eq, h.start_eq, hp.start_board]
  ai hc heven := by
    rw [h.carries_eq] at hc
    rw [hchildren, h.board_eq]
    exact hp.ai hc heven
  player hc hodd := by
    rw [h.carries_eq] at hc
    rw [hchildren, h.board_eq]
    exact hp.player hc hodd

lemma moveTo (hp : nn.Playable) {t : ℕ} (ht : t < nn.size) : (nn.moveTo t).Playable :=
  hp.keep (sameShape_moveTo nn ht) (children_moveTo ht)

lemma setPiece (hp : nn.Playable) (piece : Digit) : ({ nn with piece := piece } : NN ι).Playable :=
  hp.keep (sameShape_piece nn piece) fun _ => rfl

lemma resetPtr (hp : nn.Playable) : nn.resetPtr.Playable :=
  hp.keep (sameShape_resetPtr nn) fun _ => rfl

lemma alternates (hp : nn.Playable) : nn.Alternates := by
  intro h p c hc hmem
  have hchild : (nn.node c).board ∈ (nn.children p).map Prod.fst :=
    mem_map_children.2 ⟨c, hmem, rfl⟩
  unfold sideAt
  split
  · rename_i heven
    rcases hp.ai hc heven with hnil | ⟨hall, _⟩
    · rw [hnil] at hchild
      cases hchild
    · exact (hall _).1 hchild
  · exact hp.player hc (by omega) _ hchild

/-- The boards hung below the position may be all successors of an AI node without children, or
some of a player node. -/
lemma grow (hp : nn.Playable) {g : List (Board 3)} (hg : nn.Carries g nn.ptr)
    (hptr : nn.ptr < nn.size) {bs : List (Board 3)}
    (hai : g.length % 2 = 0 → nn.children nn.ptr = [] ∧ bs ≠ [] ∧
      ∀ b, b ∈ bs ↔ Places aiPiece (nn.node nn.ptr).board b)
    (hplayer : g.length % 2 = 1 → ∀ b ∈ bs, Places playerPiece (nn.node nn.ptr).board b) :
    (nn.grow bs).Playable where
  branching := hp.branching.grow hptr bs
  start_board := by rw [grow_start, grow_board_old hptr hp.branching.start_lt, hp.start_board]
  ai := by
    intro h p hc heven
    rcases cases_grow hp.branching hptr hc with ⟨hold, hboard⟩ | hnil
    · rw [children_grow hp.branching hptr, hboard]
      by_cases hpos : p = nn.ptr
      · subst hpos
        obtain rfl := hp.branching.history_unique hold hg
        obtain ⟨hnil, hne, hall⟩ := hai heven
        rw [hnil, if_pos rfl, List.nil_append]
        refine .inr ⟨fun b => ?_, ?_⟩
        · rw [← hall b]
          simp
        · obtain ⟨b, hb⟩ := List.exists_mem_of_ne_nil bs hne
          exact ⟨(b, 0), List.mem_map.2 ⟨b, hb, rfl⟩, by norm_num⟩
      · rw [if_neg hpos, List.append_nil]
        exact hp.ai hold heven
    · exact .inl hnil
  player := by
    intro h p hc hodd b hb
    rcases cases_grow hp.branching hptr hc with ⟨hold, hboard⟩ | hnil
    · rw [children_grow hp.branching hptr, List.map_append, List.mem_append] at hb
      rw [hboard]
      rcases hb with hb | hb
      · exact hp.player hold hodd b hb
      · split at hb
        · rename_i hpos
          subst hpos
          obtain rfl := hp.branching.history_unique hold hg
          exact hplayer hodd b (by simpa using hb)
        · cases hb
    · rw [hnil] at hb
      cases hb

/-- Moving to a child lengthens the history by its board, which is a successor. -/
lemma enter (hp : nn.Playable) {g : List (Board 3)} (hg : nn.Carries g nn.ptr) {t : ℕ}
    (ht : t ∈ (nn.node nn.ptr).next) :
    (nn.moveTo t).Playable ∧ (nn.moveTo t).Carries (g ++ [(nn.node t).board]) t ∧
      ((nn.moveTo t).node t).board = (nn.node t).board ∧
      Places (sideAt g.length) (nn.node nn.ptr).board (nn.node t).board := by
  have hlt := hp.branching.child_lt ht
  refine ⟨hp.moveTo hlt, ?_, moveTo_board _ hlt t, hp.alternates hg ht⟩
  rw [(sameShape_moveTo nn hlt).carries_eq]
  exact hg.child ht

end Playable

/-! ## The moves of a game -/

/-- The position of a game: the history of its node is as long as the turn requires, and the node
holds the board. -/
structure Position (nn : NN ι) (parity : ℕ) (board : Board 3) : Prop where
  carries : ∃ g, nn.Carries g nn.ptr ∧ g.length % 2 = parity
  board_eq : (nn.node nn.ptr).board = board

namespace Position

variable {board newBoard : Board 3}

lemma start (hp : nn.Playable) (hstart : nn.ptr = nn.start) : nn.Position 0 (createMatrix 3) where
  carries := ⟨[], by rw [hstart]; exact .root, rfl⟩
  board_eq := by rw [hstart, hp.start_board]

lemma ptr_lt (hp : nn.Playable) {parity : ℕ} (hpos : nn.Position parity board) :
    nn.ptr < nn.size := by
  obtain ⟨g, hg, _⟩ := hpos.carries
  exact hp.branching.carries_lt hg

/-- The AI is one piece ahead when the player is to move, and level when it is to move. -/
lemma pieces_eq (hp : nn.Playable) {parity : ℕ} (hpos : nn.Position parity board) :
    pieces aiPiece board = pieces playerPiece board + parity := by
  obtain ⟨g, hg, hlen⟩ := hpos.carries
  obtain ⟨hai, hplayer⟩ := Alternates.pieces hp.alternates hp.start_board hg
  rw [hpos.board_eq] at hai hplayer
  rw [hai, hplayer]
  omega

/-- From a grown tree into a child of the position. -/
lemma enter_grow {parity : ℕ} (hpos : nn.Position parity board) {bs : List (Board 3)}
    (hb : nn.Branching) (hptr : nn.ptr < nn.size) (hp : (nn.grow bs).Playable) {t : ℕ}
    (ht : t ∈ ((nn.grow bs).node nn.ptr).next) :
    ((nn.grow bs).moveTo t).Playable ∧
      ((nn.grow bs).moveTo t).Position ((parity + 1) % 2) (((nn.grow bs).moveTo t).node t).board ∧
      Places (sideAt parity) board (((nn.grow bs).moveTo t).node t).board := by
  obtain ⟨g, hg, hlen⟩ := hpos.carries
  have hg' : (nn.grow bs).Carries g (nn.grow bs).ptr := by
    rw [grow_ptr]
    exact (carries_grow_iff hb hptr).2 (.inl hg)
  obtain ⟨hplay, hcarries, hboard, hplace⟩ := hp.enter hg' (by rwa [grow_ptr])
  rw [grow_ptr, grow_board_old hptr hptr, hpos.board_eq] at hplace
  refine ⟨hplay, ⟨⟨_, hcarries, ?_⟩, rfl⟩, ?_⟩
  · rw [List.length_append, List.length_singleton]
    omega
  · rw [hboard]
    have hside : sideAt g.length = sideAt parity := by
      unfold sideAt
      rw [← hlen, Nat.mod_mod]
    rwa [hside] at hplace

/-- An `AIMove` leads to a child, which holds a successor, and keeps the tree playable. -/
lemma aiMove (hp : nn.Playable) (hpos : nn.Position 0 board) (hpiece : nn.piece = aiPiece)
    (hopen : openCells board ≠ []) {rands : List ℕ}
    (h : nn.aiMove board (possibleMoves board) rands = some (nn', newBoard)) :
    nn'.Playable ∧ nn'.piece = aiPiece ∧ nn'.Position 1 newBoard ∧
      Places aiPiece board newBoard ∧ nn'.ptr ∈ (nn'.node nn.ptr).next := by
  have hptr := hpos.ptr_lt hp
  obtain ⟨g, hg, hlen⟩ := hpos.carries
  obtain ⟨t, rfl, rfl, ht⟩ := aiMove_spec h
  -- a node without children gets all of its successors, and the others get none
  have hgrow : (nn.grow (nn.newBoards board (possibleMoves board))).Playable ∧
      ¬ nn.Stuck (possibleMoves board) := by
    rcases hp.ai hg hlen with hnil | ⟨hall, x, hx, hratio⟩
    · have hnew : nn.newBoards board (possibleMoves board) = successors aiPiece board := by
        rw [newBoards_of_no_children (children_eq_nil_iff.1 hnil), hpiece]
      have hne : successors aiPiece board ≠ [] := by simpa [successors] using hopen
      refine ⟨?_, fun hstuck => hne ?_⟩
      · rw [hnew]
        refine hp.grow hg hptr (fun _ => ⟨hnil, hne, fun b => ?_⟩) fun hodd => by omega
        rw [hpos.board_eq]
        simp [successors, Places, eq_comm]
      · rw [← hnew]
        exact newBoards_eq_nil_iff.2 hstuck.1
    · have hrem : nn.remaining (possibleMoves board) = [] := by
        refine @remaining_eq_nil _ _ nn board aiPiece (by decide) fun x hx => mem_map_children.1 ?_
        rw [hall, hpos.board_eq]
        exact ⟨x, hx, rfl⟩
      rw [newBoards_eq_nil_iff.2 hrem, grow_nil]
      refine ⟨hp, fun hstuck => ?_⟩
      obtain ⟨c, hc, rfl⟩ := List.mem_map.1 hx
      exact absurd (hstuck.2 c hc) (not_lt.2 hratio)
  rcases ht with ⟨hmem, _⟩ | ⟨_, hstuck⟩
  · obtain ⟨hplay, hpos', hplace⟩ := hpos.enter_grow hp.branching hptr hgrow.1 hmem
    refine ⟨hplay, by rw [moveTo_piece, grow_piece, hpiece], hpos', hplace, ?_⟩
    rwa [moveTo_ptr, moveTo_next _ (hgrow.1.branching.child_lt hmem)]
  · exact absurd hstuck hgrow.2

/-- So does a `playerMove` to a successor. -/
lemma playerMove (hp : nn.Playable) (hpos : nn.Position 1 board)
    (hplace : Places playerPiece board newBoard) (h : nn.playerMove newBoard = some nn') :
    nn'.Playable ∧ nn'.piece = nn.piece ∧ nn'.Position 0 newBoard := by
  have hptr := hpos.ptr_lt hp
  obtain ⟨g, hg, hlen⟩ := hpos.carries
  obtain ⟨bs, t, hmove, hmem, hcase⟩ := playerMove_spec hptr newBoard
  obtain rfl := Option.some.inj (hmove.symm.trans h)
  have hgrow : (nn.grow bs).Playable := by
    refine hp.grow hg hptr (fun heven => by omega) fun _ b hb => ?_
    rw [hpos.board_eq]
    rcases hcase with ⟨rfl, _⟩ | ⟨rfl, _⟩
    · cases hb
    · rwa [List.mem_singleton.1 hb]
  have hboard : (((nn.grow bs).moveTo t).node t).board = newBoard := by
    rw [moveTo_board _ (hgrow.branching.child_lt hmem)]
    rcases hcase with ⟨rfl, hboard⟩ | ⟨rfl, rfl, _⟩
    · exact hboard
    · exact grow_board_new (i := 0) hptr rfl
  obtain ⟨hplay, hpos', _⟩ := hpos.enter_grow hp.branching hptr hgrow hmem
  rw [hboard] at hpos'
  exact ⟨hplay, by rw [moveTo_piece, grow_piece], hpos'⟩

end Position

end NeuralTicTacToe.NN
