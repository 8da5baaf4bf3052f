import NeuralTicTacToe.Website.Reload

/-!
# Saving a loaded net

After a net is saved and loaded, the row that `saveNode` writes for each loaded node is the row
the table holds (`Relocates.rowOf_eq`): the board text is the one the board was read from, six
decimals of a weight with six decimals are the weight, and the ids of the children come in the same
order.  So saving the loaded net changes nothing (`saveNet_reloaded`).
-/

namespace NeuralTicTacToe

open Relation

namespace NN

variable {nn nn' : NN ℤ} {t t' : Table} {f : ℕ → ℕ} {p q : ℕ}

/-! ## Saving what is stored -/

/-- The rows `saveNode` writes for the nodes at and below `p` are those of the table. -/
def Stored (nn : NN ℤ) (t : Table) (p : ℕ) : Prop :=
  ∀ q ∈ nn.below p, t.select (nn.node q).nodeId = some (nn.rowOf q)

lemma Stored.child (h : nn.Stored t p) {c : ℕ} (hc : c ∈ (nn.node p).next) : nn.Stored t c :=
  fun q hq => h q (ReflTransGen.head hc hq)

/-- A loop none of whose calls changes anything changes nothing. -/
lemma foldlM_eq_of_fixed {α β : Type*} {step : β → α → Option β} {b b' : β} {xs : List α}
    (hfixed : ∀ x ∈ xs, ∀ b', step b x = some b' → b' = b) (h : xs.foldlM step b = some b') :
    b' = b := by
  induction xs with
  | nil => exact (Option.some.inj h).symm
  | cons x xs ih =>
      rw [List.foldlM_cons] at h
      obtain ⟨b₁, hcall, hrest⟩ := Option.bind_eq_some_iff.1 h
      obtain rfl := hfixed x List.mem_cons_self b₁ hcall
      exact ih (fun y hy => hfixed y (List.mem_cons_of_mem _ hy)) hrest

/-- Saving nodes that are stored changes nothing. -/
lemma Stored.saveNode_eq {fuel : ℕ} (h : nn.Stored t p) (hsave : nn.saveNode fuel t p = some t') :
    t' = t := by
  induction fuel generalizing p t' with
  | zero => cases hsave
  | succ fuel ih =>
      rw [saveNode, Table.saveRow_of_select (h p .refl)] at hsave
      apply foldlM_eq_of_fixed _ hsave
      intro c hc t₁ hcall
      exact ih (h.child hc) hcall

/-! ## The loaded net -/

/-- The nodes of the loaded net are those of the old one. -/
lemma Relocates.exists_of_reaches (h : Relocates nn nn' f) (hq : nn'.Reaches q) :
    ∃ p, nn.Reaches p ∧ f p = q := by
  induction hq with
  | refl => exact ⟨nn.start, .refl, h.start_eq.symm⟩
  | tail _ hlink ih =>
      obtain ⟨p, hp, rfl⟩ := ih
      rw [h.next_eq hp] at hlink
      obtain ⟨c, hc, rfl⟩ := List.mem_map.1 hlink
      exact ⟨c, hp.child hc, rfl⟩

/-- A child of a loaded node is a child of the old one. -/
lemma Relocates.mem_next_iff (h : Relocates nn nn' f) {c : ℕ} (hp : nn.Reaches p)
    (hreach : nn.Reaches c) : f c ∈ (nn'.node (f p)).next ↔ c ∈ (nn.node p).next := by
  rw [h.next_eq hp, List.mem_map]
  constructor
  · rintro ⟨d, hd, heq⟩
    exact h.inj (hp.child hd) hreach heq ▸ hd
  · exact fun hc => ⟨c, hc, rfl⟩

/-- The loaded net is a tree again. -/
lemma Relocates.isTree (h : Relocates nn nn' f) (ht : nn.IsTree)
    (hsize : ∀ p, nn.Reaches p → f p < nn'.size) : nn'.IsTree := by
  refine ⟨fun hq hc => ?_, fun hq hstart => ?_, fun hq hr hcq hcr => ?_, fun hq => ?_,
    fun hq hr hid => ?_, ?_⟩
  · obtain ⟨c, hreach, rfl⟩ := h.exists_of_reaches (hq.child hc)
    exact hsize c hreach
  · obtain ⟨p, hp, rfl⟩ := h.exists_of_reaches hq
    rw [h.start_eq] at hstart
    exact ht.start_no_parent hp ((h.mem_next_iff hp .refl).1 hstart)
  · obtain ⟨c, hreach, rfl⟩ := h.exists_of_reaches (hq.child hcq)
    obtain ⟨p, hp, rfl⟩ := h.exists_of_reaches hq
    obtain ⟨p', hp', rfl⟩ := h.exists_of_reaches hr
    rw [ht.parent_unique hp hp' ((h.mem_next_iff hp hreach).1 hcq)
      ((h.mem_next_iff hp' hreach).1 hcr)]
  · obtain ⟨p, hp, rfl⟩ := h.exists_of_reaches hq
    rw [h.next_eq hp]
    apply (ht.nodup_next hp).map_on
    exact fun c hc d hd heq => h.inj (hp.child hc) (hp.child hd) heq
  · obtain ⟨p, hp, rfl⟩ := h.exists_of_reaches hq
    obtain ⟨p', hp', rfl⟩ := h.exists_of_reaches hr
    rw [h.nodeId_eq hp, h.nodeId_eq hp'] at hid
    rw [ht.nodeId_inj hp hp' hid]
  · rw [h.start_eq, h.nodeId_eq .refl, ht.start_nodeId]

/-- The row `saveNode` writes for a loaded node is the one its id has. -/
lemma Relocates.rowOf_eq (h : Relocates nn nn' f) (hp : nn.Reaches p)
    (hboard : stringBoard (nn'.node (f p)).board = boardAfter nn t p)
    (hweight : ∀ w, (nn'.node (f p)).weight w = sixDecimals ((nn.node p).weight w)) :
    nn'.rowOf (f p) = merged (nn.rowOf p) (t.select (nn.node p).nodeId) := by
  have hmerged : merged (nn.rowOf p) (t.select (nn.node p).nodeId) =
      { nn.rowOf p with board := boardAfter nn t p } := by
    unfold boardAfter
    cases t.select (nn.node p).nodeId with
    | none => rfl
    | some old => rfl
  have hids : (nn'.node (f p)).next.map (fun c => (nn'.node c).nodeId) =
      (nn.node p).next.map fun c => (nn.node c).nodeId := by
    rw [h.next_eq hp, List.map_map]
    apply List.map_congr_left
    exact fun c hc => h.nodeId_eq (hp.child hc)
  have hsix (w : Weight) :
      sixDecimals ((nn'.node (f p)).weight w) = sixDecimals ((nn.node p).weight w) := by
    rw [hweight, sixDecimals_sixDecimals]
  have hgood : sixDecimals (nn'.node (f p)).good = sixDecimals (nn.node p).good := hsix .good
  have hbad : sixDecimals (nn'.node (f p)).bad = sixDecimals (nn.node p).bad := hsix .bad
  have hokay : sixDecimals (nn'.node (f p)).okay = sixDecimals (nn.node p).okay := hsix .okay
  rw [hmerged, rowOf, rowOf, h.nodeId_eq hp, hboard, hgood, hbad, hokay, hids, h.next_eq hp,
    List.length_map]

/-- **Saving the net that was loaded leaves the table as it is**, whatever table the net was saved
over first.  If its ids are of type `int`, it can be loaded. -/
theorem saveNet_reloaded (ht : nn.IsTree) {file : File} (hopens : file.opens = true)
    (hboards : ∀ t ∈ file.table, NineDigitBoards t) :
    ∃ file', nn.saveNet file = some file' ∧
      (nn.IntIds → ∃ nn', loadNet file' = some (some nn')) ∧
      ∀ nn', loadNet file' = some (some nn') → nn'.saveNet file' = some file' := by
  have hnine : NineDigitBoards (file.table.getD Table.empty) := by
    cases htable : file.table with
    | none => exact fun row hrow => absurd hrow List.not_mem_nil
    | some t => exact hboards t htable
  have hread := exists_board_boardAfter hnine nn
  have hreload (hint : nn.IntIds) := exists_reload ht hint hopens fun p _ => by
    obtain ⟨b, hb, _⟩ := hread p
    rw [hb]
    rfl
  obtain ⟨t', hsave, hsaved⟩ := exists_saveNet ht hopens
  refine ⟨_, hsave, fun hint => ?_, fun nn' hload => ?_⟩
  · obtain ⟨file', nn', _, hsave', hload, _⟩ := hreload hint
    obtain rfl := Option.some.inj (hsave.symm.trans hsave')
    exact ⟨nn', hload⟩
  obtain ⟨file', nn'', f, hsave', hload', hf, hafter, hweight, _, _, hsize, _⟩ :=
    hreload (intIds_of_reload ht hopens hsave hload)
  obtain rfl := Option.some.inj (hsave.symm.trans hsave')
  obtain rfl := Option.some.inj (Option.some.inj (hload.symm.trans hload'))
  -- every row the loaded net would write is there
  have hstored : nn'.Stored t' nn'.start := by
    intro q hq
    obtain ⟨p, hp, rfl⟩ := hf.exists_of_reaches hq
    obtain ⟨b, hb, htext⟩ := hread p
    obtain rfl := Option.some.inj ((hafter p hp).symm.trans hb)
    rw [hf.rowOf_eq hp htext (hweight p hp), hf.nodeId_eq hp]
    exact hsaved.row p hp
  obtain ⟨t'', hcall, -⟩ := exists_saveNode (hf.isTree ht hsize) .refl .goal
    (show nn'.size < nn'.nodes.length + 1 + 0 from Nat.lt_succ_self _) t'
  obtain rfl := hstored.saveNode_eq hcall
  rw [saveNet, if_pos hopens]
  dsimp only [Option.getD_some]
  rw [hcall]
  rfl

theorem saveNet_reloaded_sample : ∃ file' nn',
    (oneMove (Function.update (createMatrix 3) (1, 1) 1)).saveNet ⟨true, true, some olderTable⟩ =
      some file' ∧ loadNet file' = some (some nn') ∧ nn'.saveNet file' = some file' := by
  have hnum := numbered_oneMove (Function.update (createMatrix 3) (1, 1) 1)
  obtain ⟨file', hsave, hloads, hagain⟩ := @saveNet_reloaded _ hnum.isTree
    ⟨true, true, some olderTable⟩ rfl fun t ht => by
      obtain rfl := Option.some.inj ht
      exact nineDigitBoards_olderTable
  obtain ⟨nn', hload⟩ := hloads (hnum.intIds (by decide +kernel))
  exact ⟨file', nn', hsave, hload, hagain nn' hload⟩

end NN

end NeuralTicTacToe
