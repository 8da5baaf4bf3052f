import NeuralTicTacToe.Framework.Lockstep
import NeuralTicTacToe.Net.Calls

/-!
# The same net elsewhere in memory

`Elsewhere nn nn' f`: the node objects of `nn'` are those of `nn`, with every pointer `p` replaced
by `f p`.  Nothing an `NN` does depends on where its objects lie, so all its functions keep such a
renaming, with the same `f`: pointers to objects that do not exist yet are not renamed.
-/

namespace NeuralTicTacToe

/-- A node with its pointers renamed. -/
def Node.rename {ι : Type} (f : ℕ → ℕ) (n : Node ι) : Node ι :=
  { n with next := n.next.map f, prev := n.prev.map f }

namespace NN

variable {ι : Type} [NodeIds ι]

/-- A walk that has not arrived stops without fuel, and without a parent. -/
lemma outcomeFrom_of_lost {nn : NN ι} {w : Weight} {fuel : ℕ} {x : ℚ} (hne : nn.ptr ≠ nn.start)
    (hlost : fuel = 0 ∨ (nn.node nn.ptr).prev = none) : outcomeFrom w fuel x nn = none := by
  refine Option.eq_none_iff_forall_ne_some.2 fun m hm => ?_
  rcases outcomeFrom_eq_some hm with ⟨hstart, _⟩ | ⟨_, n, p, rfl, hprev, _⟩
  · exact hne hstart
  · rcases hlost with hfuel | hnone
    · cases hfuel
    · rw [hnone] at hprev
      cases hprev

/-- `nn'` is `nn` with every pointer `p` replaced by `f p`. -/
structure Elsewhere (nn nn' : NN ι) (f : ℕ → ℕ) : Prop where
  inj : Function.Injective f
  fixes : ∀ p, nn.size ≤ p → f p = p
  size_eq : nn'.size = nn.size
  start_eq : nn'.start = f nn.start
  ptr_eq : nn'.ptr = f nn.ptr
  piece_eq : nn'.piece = nn.piece
  total_eq : nn'.totalNodeIds = nn.totalNodeIds
  node_eq : ∀ p, nn'.node (f p) = (nn.node p).rename f

namespace Elsewhere

lemma refl (nn : NN ι) : Elsewhere nn nn id := by
  refine ⟨fun _ _ heq => heq, fun _ _ => rfl, rfl, rfl, rfl, rfl, rfl, fun p => ?_⟩
  simp [Node.rename]

variable {nn nn' : NN ι} {f : ℕ → ℕ} (h : Elsewhere nn nn' f)
include h

lemma lt_size {p : ℕ} (hp : p < nn.size) : f p < nn.size := by
  by_contra hge
  have hfix := h.fixes (f p) (Nat.le_of_not_lt hge)
  rw [h.inj hfix] at hge
  exact hge hp

@[simp] lemma board_eq (p : ℕ) : (nn'.node (f p)).board = (nn.node p).board := by
  rw [h.node_eq]
  rfl

@[simp] lemma next_eq (p : ℕ) : (nn'.node (f p)).next = (nn.node p).next.map f := by
  rw [h.node_eq]
  rfl

@[simp] lemma prev_eq (p : ℕ) : (nn'.node (f p)).prev = (nn.node p).prev.map f := by
  rw [h.node_eq]
  rfl

@[simp] lemma ratio_eq (p : ℕ) : getRatio (nn'.node (f p)) = getRatio (nn.node p) := by
  rw [h.node_eq]
  rfl

/-- A position that corresponds to the old one. -/
lemma setPtr (p : ℕ) : Elsewhere ({ nn with ptr := p } : NN ι) { nn' with ptr := f p } f :=
  ⟨h.inj, h.fixes, h.size_eq, h.start_eq, rfl, h.piece_eq, h.total_eq, h.node_eq⟩

lemma setPiece (piece : Digit) :
    Elsewhere ({ nn with piece := piece } : NN ι) { nn' with piece := piece } f :=
  ⟨h.inj, h.fixes, h.size_eq, h.start_eq, h.ptr_eq, rfl, h.total_eq, h.node_eq⟩

lemma resetPtr : Elsewhere nn.resetPtr nn'.resetPtr f := by
  have hset := h.setPtr nn.start
  rwa [← h.start_eq] at hset

/-- A write that does not depend on where the objects lie. -/
lemma modify {p : ℕ} (hp : p < nn.size) {g g' : Node ι → Node ι}
    (hg : ∀ n : Node ι, g' (n.rename f) = (g n).rename f) :
    Elsewhere (nn.modify p g) (nn'.modify (f p) g') f where
  inj := h.inj
  fixes q hq := h.fixes q (by rwa [modify_size] at hq)
  size_eq := by rw [modify_size, modify_size, h.size_eq]
  start_eq := h.start_eq
  ptr_eq := h.ptr_eq
  piece_eq := h.piece_eq
  total_eq := h.total_eq
  node_eq q := by
    rw [node_modify nn g hp, node_modify nn' g' (h.size_eq.symm ▸ h.lt_size hp), h.node_eq, hg]
    by_cases hq : q = p
    · rw [if_pos hq, if_pos (congrArg f hq)]
    · rw [if_neg hq, if_neg fun heq => hq (h.inj heq)]

lemma moveTo {c : ℕ} (hc : c < nn.size) : Elsewhere (nn.moveTo c) (nn'.moveTo (f c)) f := by
  refine (h.modify hc fun n => ?_).setPtr c
  rw [h.ptr_eq]
  rfl

lemma newNode {p : ℕ} (hp : p < nn.size) (b : Board 3) :
    Elsewhere (nn.newNode p b) (nn'.newNode (f p) b) f where
  inj := h.inj
  fixes q hq := h.fixes q (by rw [newNode_size] at hq; omega)
  size_eq := by rw [newNode_size, newNode_size, h.size_eq]
  start_eq := h.start_eq
  ptr_eq := h.ptr_eq
  piece_eq := h.piece_eq
  total_eq := congrArg NodeIds.succ h.total_eq
  node_eq q := by
    have hfix := h.fixes nn.size le_rfl
    have hsize : f q = nn.size ↔ q = nn.size := by
      constructor
      · intro heq
        exact h.inj (heq.trans hfix.symm)
      · rintro rfl
        exact hfix
    rw [node_newNode nn b hp, node_newNode nn' b (h.size_eq.symm ▸ h.lt_size hp), h.size_eq,
      h.total_eq]
    simp only [hsize]
    by_cases hq : q = nn.size
    · rw [if_pos hq, if_pos hq]
      rfl
    · rw [if_neg hq, if_neg hq]
      by_cases hqp : q = p
      · rw [if_pos hqp, if_pos (congrArg f hqp), h.node_eq]
        simp [Node.rename, hfix]
      · rw [if_neg hqp, if_neg fun heq => hqp (h.inj heq), h.node_eq]

lemma grow (hptr : nn.ptr < nn.size) (bs : List (Board 3)) :
    Elsewhere (nn.grow bs) (nn'.grow bs) f := by
  induction bs generalizing nn nn' with
  | nil => exact h
  | cons b bs ih =>
      rw [grow_cons, grow_cons, h.ptr_eq]
      exact ih (h.newNode hptr b) (by rw [newNode_ptr, newNode_size]; omega)

/-! ## The functions of the net -/

/-- The player's move. -/
lemma playerMove (ht : nn.Tree) (board : Board 3) :
    ∃ m m', nn.playerMove board = some m ∧ nn'.playerMove board = some m' ∧
      Elsewhere m m' f := by
  have hfind : (nn'.node nn'.ptr).next.find? (fun c => boardMatches (nn'.node c).board board) =
      ((nn.node nn.ptr).next.find? fun c => boardMatches (nn.node c).board board).map f := by
    rw [h.ptr_eq, h.next_eq, List.find?_map]
    simp only [Function.comp_def, h.board_eq]
  unfold NN.playerMove
  rw [hfind]
  cases hchild : (nn.node nn.ptr).next.find? fun c => boardMatches (nn.node c).board board with
  | some c => exact ⟨_, _, rfl, rfl, h.moveTo (ht.child_lt (List.mem_of_find?_eq_some hchild))⟩
  | none =>
      have hnew := h.newNode ht.ptr_lt board
      have hlast : ((nn'.newNode (f nn.ptr) board).node (f nn.ptr)).next.getLastD (f nn.ptr) =
          f (((nn.newNode nn.ptr board).node nn.ptr).next.getLastD nn.ptr) := by
        rw [hnew.next_eq, List.getLastD_eq_getLast?, List.getLastD_eq_getLast?, List.getLast?_map,
          Option.getD_map]
      rw [matrixBoard_stringBoard, h.ptr_eq]
      refine ⟨_, _, rfl, rfl, ?_⟩
      have hset := hnew.setPtr (((nn.newNode nn.ptr board).node nn.ptr).next.getLastD nn.ptr)
      rw [← hlast] at hset
      simpa only [newNode_ptr, h.ptr_eq] using hset

/-- One child in the search. -/
lemma searchChild (s : Search) (c : ℕ) :
    nn'.searchChild { s with temp := f s.temp } (f c) =
      { nn.searchChild s c with temp := f (nn.searchChild s c).temp } := by
  simp only [NN.searchChild, h.ratio_eq, h.board_eq]
  split
  · rfl
  · split
    · rfl
    · rfl

/-- The search finds the same, but for where the best child lies. -/
lemma search (moves : List (Option (Cell 3))) :
    nn'.search moves = { nn.search moves with temp := f (nn.search moves).temp } := by
  have hloop : ∀ (cs : List ℕ) (s : Search),
      (cs.map f).foldl nn'.searchChild { s with temp := f s.temp } =
        { cs.foldl nn.searchChild s with temp := f (cs.foldl nn.searchChild s).temp } := by
    intro cs
    induction cs with
    | nil => exact fun s => rfl
    | cons c cs ih =>
        intro s
        rw [List.map_cons, List.foldl_cons, List.foldl_cons, h.searchChild, ih]
  rw [NN.search, h.ptr_eq, h.next_eq]
  exact hloop _ { highest := -100, temp := nn.ptr, numTies := 0, possibleMoves := moves }

lemma newBoards_eq (board : Board 3) (moves : List (Option (Cell 3))) :
    nn'.newBoards board moves = nn.newBoards board moves := by
  rw [newBoards, newBoards, remaining, remaining, h.search, h.piece_eq]

/-- The rejection loop accepts the same child. -/
lemma pick (highest : ℚ) (rands : List ℕ) :
    nn'.pick highest rands = (nn.pick highest rands).map f := by
  induction rands with
  | nil => rfl
  | cons r rands ih =>
      unfold NN.pick
      rw [h.ptr_eq, h.next_eq, List.length_map, List.getElem?_map]
      cases (nn.node nn.ptr).next[r % (nn.node nn.ptr).next.length]? with
      | none => rfl
      | some c =>
          simp only [Option.map_some, h.ratio_eq]
          split
          · exact ih
          · rfl

lemma chosen (hptr : nn.ptr < nn.size) (board : Board 3) (moves : List (Option (Cell 3)))
    (rands : List ℕ) : nn'.chosen board moves rands = (nn.chosen board moves rands).map f := by
  unfold NN.chosen
  rw [h.newBoards_eq, h.search, (h.grow hptr _).pick]
  split
  · rfl
  · rfl

/-- The AI's move: it shows the same board. -/
lemma aiMove (ht : nn.Tree) (board : Board 3) (moves : List (Option (Cell 3))) (rands : List ℕ) :
    Option.Rel (fun r r' => r.2 = r'.2 ∧ Elsewhere r.1 r'.1 f) (nn.aiMove board moves rands)
      (nn'.aiMove board moves rands) := by
  rw [aiMove_eq, aiMove_eq, h.chosen ht.ptr_lt, h.newBoards_eq]
  cases hchosen : nn.chosen board moves rands with
  | none => exact .none
  | some t =>
      have hmove : nn.aiMove board moves rands =
          some ((nn.grow (nn.newBoards board moves)).moveTo t,
          (((nn.grow (nn.newBoards board moves)).moveTo t).node t).board) := by
        rw [aiMove_eq, hchosen]
        rfl
      obtain ⟨t', heq, _, htarget⟩ := aiMove_spec hmove
      obtain rfl : t = t' := congrArg NN.ptr heq
      have hmoved := (h.grow ht.ptr_lt (nn.newBoards board moves)).moveTo
        (ht.target_lt (htarget.imp And.left And.left))
      exact .some ⟨(hmoved.board_eq t).symm, hmoved⟩

lemma stepUp (w : Weight) (x : ℚ) (hptr : nn.ptr < nn.size) (p : ℕ) :
    Elsewhere (nn.stepUp w x p) (nn'.stepUp w x (f p)) f := by
  refine Elsewhere.setPtr ?_ p
  rw [h.ptr_eq]
  refine h.modify hptr fun n => ?_
  cases w with
  | good => rfl
  | bad => rfl
  | okay => rfl

/-- The walk of an outcome. -/
lemma outcomeFrom (w : Weight) (fuel : ℕ) (x : ℚ) :
    Option.Rel (fun m m' => Elsewhere m m' f) (NN.outcomeFrom w fuel x nn)
      (NN.outcomeFrom w fuel x nn') := by
  have hends : nn'.ptr = nn'.start ↔ nn.ptr = nn.start := by
    rw [h.ptr_eq, h.start_eq, h.inj.eq_iff]
  induction fuel generalizing nn nn' x with
  | zero =>
      by_cases hstart : nn.ptr = nn.start
      · rw [outcomeFrom_of_start hstart, outcomeFrom_of_start (hends.2 hstart)]
        exact .some h
      · rw [outcomeFrom_of_lost hstart (.inl rfl),
          outcomeFrom_of_lost (hends.not.2 hstart) (.inl rfl)]
        exact .none
  | succ fuel ih =>
      by_cases hstart : nn.ptr = nn.start
      · rw [outcomeFrom_of_start hstart, outcomeFrom_of_start (hends.2 hstart)]
        exact .some h
      · have hprev' := h.prev_eq nn.ptr
        rw [← h.ptr_eq] at hprev'
        cases hprev : (nn.node nn.ptr).prev with
        | none =>
            rw [hprev, Option.map_none] at hprev'
            rw [outcomeFrom_of_lost hstart (.inr hprev),
              outcomeFrom_of_lost (hends.not.2 hstart) (.inr hprev')]
            exact .none
        | some p =>
            rw [hprev, Option.map_some] at hprev'
            rw [outcomeFrom_of_prev hstart hprev, outcomeFrom_of_prev (hends.not.2 hstart) hprev']
            have hstep := h.stepUp w x (lt_size_of_prev hprev) p
            exact ih hstep _ (by rw [hstep.ptr_eq, hstep.start_eq, hstep.inj.eq_iff])

/-- The outcome functions: both walks end, or neither does. -/
lemma outcome (w : Weight) :
    Option.Rel (fun m m' => Elsewhere m m' f) (nn.outcome w) (nn'.outcome w) := by
  have hlen : nn'.nodes.length = nn.nodes.length := h.size_eq
  rw [NN.outcome, NN.outcome, hlen]
  exact h.outcomeFrom w _ _

/-- A call: both return, or neither does. -/
lemma callWith (ht : nn.Tree) {A : Type} (given : A → Given) (c : Call A) :
    Option.Rel (fun m m' => Elsewhere m m' f) (nn.callWith given c) (nn'.callWith given c) := by
  cases c with
  | playerMove board =>
      obtain ⟨m, m', hm, hm', hmoved⟩ := h.playerMove ht board
      rw [NN.callWith, NN.callWith, hm, hm']
      exact .some hmoved
  | aiMove a => exact Lockstep.rel_map (h.aiMove ht _ _ _) fun _ _ _ hr => hr.2
  | outcome w => exact h.outcome w
  | resetPtr => exact .some h.resetPtr

end Elsewhere

end NN

end NeuralTicTacToe
