import Cbop.Lib.PtrTree
import Cbop.RangeTree.Basic

/-
  `splay` of `range_tree/dtree.c` on nodes in memory.

  The source takes the tree apart through pointers: the node
  `t` moves down, `l` and `r` are the last nodes of two
  partial trees, and the local node `N` holds the roots of
  both. Here every one of these writes is made on a heap of
  nodes, and the result is the tree that `splay` builds.

  Main declarations:
    * `SplayState`, `splayBody`, `splayAt`
    * `SplayInv`
    * `splayAt_splay`, `splayAt_spec`
-/

namespace Cbop

variable {ρ : Type}

------------------------------------------------------------
-- The Loop
------------------------------------------------------------

/- The nodes of range trees by address. -/
abbrev NodeHeap (ρ : Type) := TreeHeap (MemRange ρ)

/- The base address of the node at `a`. -/
def NodeHeap.base (heap : NodeHeap ρ) (a : Nat) : Nat :=
  (heap a).data.base

/- The nodes in memory and the variables of the loop. -/
structure SplayState (ρ : Type) where
  heap : NodeHeap ρ
  l : Nat
  r : Nat
  t : Nat

/- `t->lc = y->rc; y->rc = t; t = y`, for `y = t->lc`. -/
def SplayState.rotateLc
    (s : SplayState ρ)
    (y : Nat) :
    SplayState ρ :=
  let heap := s.heap.setLc s.t (s.heap y).rc
  { s with heap := heap.setRc y (some s.t), t := y }

/- `t->rc = y->lc; y->lc = t; t = y`, for `y = t->rc`. -/
def SplayState.rotateRc
    (s : SplayState ρ)
    (y : Nat) :
    SplayState ρ :=
  let heap := s.heap.setRc s.t (s.heap y).lc
  { s with heap := heap.setLc y (some s.t), t := y }

/- The rotation when the key is left of the left child. -/
def SplayState.zigLc
    (key : Nat)
    (s : SplayState ρ) :
    SplayState ρ :=
  match (s.heap s.t).lc with
  | some y =>
      if key < s.heap.base y then s.rotateLc y else s
  | none => s

/- The rotation when the key is right of the right child. -/
def SplayState.zigRc
    (key : Nat)
    (s : SplayState ρ) :
    SplayState ρ :=
  match (s.heap s.t).rc with
  | some y =>
      if s.heap.base y < key then s.rotateRc y else s
  | none => s

/- `r->lc = t; r = t; t = t->lc`. -/
def SplayState.linkR
    (s : SplayState ρ) :
    Option (SplayState ρ) := do
  let heap := s.heap.setLc s.r (some s.t)
  let t ← (heap s.t).lc
  some { s with heap := heap, r := s.t, t := t }

/- `l->rc = t; l = t; t = t->rc`. -/
def SplayState.linkL
    (s : SplayState ρ) :
    Option (SplayState ρ) := do
  let heap := s.heap.setRc s.l (some s.t)
  let t ← (heap s.t).rc
  some { s with heap := heap, l := s.t, t := t }

/-
  The body of the loop: the state after it, and whether the
  loop goes on. `none` is a null `t`.
-/
def splayBody
    (key : Nat)
    (s : SplayState ρ) :
    Option (SplayState ρ × Bool) :=
  if key < s.heap.base s.t then
    let s := s.zigLc key
    if (s.heap s.t).lc = none then some (s, false)
    else s.linkR.map (fun s => (s, true))
  else if s.heap.base s.t < key then
    let s := s.zigRc key
    if (s.heap s.t).rc = none then some (s, false)
    else s.linkL.map (fun s => (s, true))
  else
    some (s, false)

/- The loop; `none` is also an exhausted loop bound. -/
def splayLoopAt
    (key : Nat) :
    Nat → SplayState ρ → Option (SplayState ρ)
| 0, _ => none
| fuel + 1, s => do
    let (s, goesOn) ← splayBody key s
    if goesOn then splayLoopAt key fuel s else some s

/-
  The statements behind the loop: `l->rc = t->lc`,
  `r->lc = t->rc`, `t->lc = N.rc`, `t->rc = N.lc`.
-/
def SplayState.close
    (s : SplayState ρ)
    (n : Nat) :
    NodeHeap ρ :=
  let heap := s.heap.setRc s.l (s.heap s.t).lc
  let heap := heap.setLc s.r (heap s.t).rc
  let heap := heap.setLc s.t (heap n).rc
  heap.setRc s.t (heap n).lc

/- `splay`, with its local node `N` at the address `n`. -/
def splayAt
    (fuel n : Nat)
    (heap : NodeHeap ρ)
    (p : Option Nat)
    (key : Nat) :
    Option (NodeHeap ρ × Option Nat) :=
  match p with
  | none => some (heap, none)
  | some t => do
      let heap := (heap.setLc n none).setRc n none
      let s ← splayLoopAt key fuel ⟨heap, n, n, t⟩
      some (s.close n, some s.t)

------------------------------------------------------------
-- The Invariant of the Loop
------------------------------------------------------------

/-
  Between two turns of the loop: the tree at `t` and the
  open spines at `l` and `r` are made of the nodes of the
  tree `splay` was given, and hold the same ranges.
-/
structure SplayInv
    (heap : NodeHeap ρ)
    (n : Nat)
    (nodes : List Nat)
    (s : SplayState ρ)
    (tree : BinTree Nat)
    (left : List (BinTree Nat × Nat))
    (right : List (Nat × BinTree Nat)) : Prop where
  points : s.heap.Points (some s.t) tree
  leftOpen : s.heap.LeftOpen n left s.l
  rightOpen : s.heap.RightOpen n right s.r
  nodes_eq : BinTree.leftList left ++ tree.toList ++
    BinTree.rightList right = nodes
  nodup : (n :: nodes).Nodup
  data : ∀ a, (s.heap a).data = (heap a).data
  frame : ∀ a, a ≠ n → a ∉ nodes → s.heap a = heap a

/-
  After a splay: the tree that hangs from `t` has the old
  nodes, and the other nodes stayed as they were.
-/
structure Splayed
    (heap : NodeHeap ρ)
    (n : Nat)
    (nodes : List Nat)
    (heap' : NodeHeap ρ)
    (t : Nat)
    (tree : BinTree Nat) : Prop where
  points : heap'.Points (some t) tree
  data : ∀ a, (heap' a).data = (heap a).data
  frame : ∀ a, a ≠ n → a ∉ nodes → heap' a = heap a

namespace SplayInv

variable {heap : NodeHeap ρ}
variable {n : Nat}
variable {nodes : List Nat}
variable {s : SplayState ρ}
variable {left : List (BinTree Nat × Nat)}
variable {right : List (Nat × BinTree Nat)}

/- The nodes of the three parts are all different. -/
theorem apart
    {tree : BinTree Nat}
    (hInv : SplayInv heap n nodes s tree left right) :
    n ∉ tree.toList ∧ n ∉ BinTree.leftList left ∧
      n ∉ BinTree.rightList right ∧
      tree.toList.Nodup ∧ (BinTree.leftList left).Nodup ∧
      (BinTree.rightList right).Nodup ∧
      (∀ a ∈ tree.toList, a ∉ BinTree.leftList left ∧
        a ∉ BinTree.rightList right) ∧
      ∀ a ∈ BinTree.leftList left,
        a ∉ BinTree.rightList right := by
  have hNodup := hInv.nodup
  rw [← hInv.nodes_eq] at hNodup
  simp only [List.nodup_cons, List.nodup_append,
    List.mem_append] at hNodup
  grind

/- A cell that is no node is in none of the parts. -/
theorem outside
    {tree : BinTree Nat}
    {a : Nat}
    (hInv : SplayInv heap n nodes s tree left right)
    (ha : a ∉ nodes) :
    a ∉ tree.toList ∧ a ∉ BinTree.leftList left ∧
      a ∉ BinTree.rightList right := by
  rw [← hInv.nodes_eq] at ha
  simp only [List.mem_append] at ha
  grind

/- The comparisons of the loop are made on the bases. -/
theorem base_eq
    {tree : BinTree Nat}
    (hInv : SplayInv heap n nodes s tree left right)
    (a : Nat) :
    s.heap.base a = heap.base a := by
  unfold NodeHeap.base
  rw [hInv.data]

/- A turn that only writes cells of the tree. -/
theorem of_tree
    {tree tree' : BinTree Nat}
    {s' : SplayState ρ}
    (hInv : SplayInv heap n nodes s tree left right)
    (hL : s'.l = s.l)
    (hR : s'.r = s.r)
    (hList : tree'.toList = tree.toList)
    (hData : ∀ a, (s'.heap a).data = (s.heap a).data)
    (hCells : ∀ a, a ∉ tree.toList →
      s'.heap a = s.heap a)
    (hPoints : s'.heap.Points (some s'.t) tree') :
    SplayInv heap n nodes s' tree' left right := by
  rcases hInv.apart with
    ⟨hTree, -, -, -, -, -, hApart, -⟩
  constructor
  · exact hPoints
  · rw [hL]
    apply hInv.leftOpen.congr
    · rw [hCells n hTree]
    · intro a ha
      exact hCells a (fun hMem => (hApart a hMem).1 ha)
  · rw [hR]
    apply hInv.rightOpen.congr
    · rw [hCells n hTree]
    · intro a ha
      exact hCells a (fun hMem => (hApart a hMem).2 ha)
  · rw [hList]
    exact hInv.nodes_eq
  · exact hInv.nodup
  · intro a
    rw [hData]
    exact hInv.data a
  · intro a hn ha
    rw [hCells a (hInv.outside ha).1]
    exact hInv.frame a hn ha

theorem rotateLc
    {a b rt : BinTree Nat}
    {y x : Nat}
    (hInv : SplayInv heap n nodes s
      (.node (.node a y b) x rt) left right) :
    SplayInv heap n nodes (s.rotateLc y)
      (.node a y (.node b x rt)) left right := by
  have hNodup := hInv.apart.2.2.2.1
  rcases s with ⟨h, l, r, t⟩
  rcases hInv.points with ⟨hx, ⟨-, ha, hb⟩, hRt⟩
  have hx : t = x := Option.some.inj hx
  subst hx
  simp only [BinTree.toList_node, List.nodup_append,
    List.nodup_cons, List.mem_append, List.mem_cons]
    at hNodup
  have hxy : t ≠ y := by grind
  have hKeep : ∀ z, z ≠ t → z ≠ y →
      (h.setLc t (h y).rc).setRc y (some t) z = h z := by
    intro z hzx hzy
    rw [TreeHeap.setRc_of_ne hzy, TreeHeap.setLc_of_ne hzx]
  apply hInv.of_tree
  · rfl
  · rfl
  · simp
  · intro z
    simp [SplayState.rotateLc]
  · intro z hz
    simp only [BinTree.toList_node, List.mem_append,
      List.mem_cons] at hz
    exact hKeep z (by grind) (by grind)
  · refine ⟨rfl, ?_, ?_, ?_, ?_⟩
    · simp only [SplayState.rotateLc, TreeHeap.setRc_lc,
        TreeHeap.setLc_of_ne hxy.symm]
      exact ha.congr (fun z hz =>
        hKeep z (by grind) (by grind))
    · simp [SplayState.rotateLc]
    · simp only [SplayState.rotateLc, TreeHeap.setRc_lc,
        TreeHeap.setLc_lc_self]
      exact hb.congr (fun z hz =>
        hKeep z (by grind) (by grind))
    · simp only [SplayState.rotateLc,
        TreeHeap.setRc_of_ne hxy, TreeHeap.setLc_rc]
      exact hRt.congr (fun z hz =>
        hKeep z (by grind) (by grind))

theorem rotateRc
    {a b lt : BinTree Nat}
    {y x : Nat}
    (hInv : SplayInv heap n nodes s
      (.node lt x (.node a y b)) left right) :
    SplayInv heap n nodes (s.rotateRc y)
      (.node (.node lt x a) y b) left right := by
  have hNodup := hInv.apart.2.2.2.1
  rcases s with ⟨h, l, r, t⟩
  rcases hInv.points with ⟨hx, hLt, -, ha, hb⟩
  have hx : t = x := Option.some.inj hx
  subst hx
  simp only [BinTree.toList_node, List.nodup_append,
    List.nodup_cons, List.mem_append, List.mem_cons]
    at hNodup
  have hxy : t ≠ y := by grind
  have hKeep : ∀ z, z ≠ t → z ≠ y →
      (h.setRc t (h y).lc).setLc y (some t) z = h z := by
    intro z hzx hzy
    rw [TreeHeap.setLc_of_ne hzy, TreeHeap.setRc_of_ne hzx]
  apply hInv.of_tree
  · rfl
  · rfl
  · simp
  · intro z
    simp [SplayState.rotateRc]
  · intro z hz
    simp only [BinTree.toList_node, List.mem_append,
      List.mem_cons] at hz
    exact hKeep z (by grind) (by grind)
  · refine ⟨rfl, ⟨?_, ?_, ?_⟩, ?_⟩
    · simp [SplayState.rotateRc]
    · simp only [SplayState.rotateRc,
        TreeHeap.setLc_of_ne hxy, TreeHeap.setRc_lc]
      exact hLt.congr (fun z hz =>
        hKeep z (by grind) (by grind))
    · simp only [SplayState.rotateRc, TreeHeap.setLc_rc,
        TreeHeap.setRc_rc_self]
      exact ha.congr (fun z hz =>
        hKeep z (by grind) (by grind))
    · simp only [SplayState.rotateRc, TreeHeap.setLc_rc,
        TreeHeap.setRc_of_ne hxy.symm]
      exact hb.congr (fun z hz =>
        hKeep z (by grind) (by grind))

/- A link moves the root and its right subtree over. -/
theorem linkR
    {lt rt : BinTree Nat}
    {x : Nat}
    (hInv : SplayInv heap n nodes s
      (.node lt x rt) left right)
    (hNode : lt ≠ .nil) :
    ∃ s', s.linkR = some s' ∧
      SplayInv heap n nodes s' lt left
        ((x, rt) :: right) := by
  rcases hInv.apart with
    ⟨hTree, hLeft, hRight, hNodup, -, hNodupR, hApart,
      hCross⟩
  rcases s with ⟨h, l, r, t⟩
  rcases hInv.points with ⟨hx, hLt, hRt⟩
  have hx : t = x := Option.some.inj hx
  subst hx
  simp only [BinTree.toList_node, List.nodup_append,
    List.nodup_cons, List.mem_append, List.mem_cons]
    at hTree hNodup hApart
  have hMem := hInv.rightOpen.mem
  have hKeep : ∀ z, z ≠ r →
      h.setLc r (some t) z = h z :=
    fun z hz => TreeHeap.setLc_of_ne hz
  have htr : t ≠ r := by grind
  cases hLc : (h t).lc with
  | none => exact absurd (hLt.eq_none_iff.mp hLc) hNode
  | some y =>
      have hNext :
          (h.setLc r (some t) t).lc = some y := by
        rw [hKeep t htr, hLc]
      refine ⟨⟨h.setLc r (some t), l, t, y⟩,
        ?_, ?_⟩
      · simp [SplayState.linkR, hNext]
      · constructor
        · rw [← hLc]
          exact hLt.congr (fun z hz => hKeep z (by grind))
        · apply hInv.leftOpen.congr
          · exact TreeHeap.setLc_rc _ _ _ _
          · exact fun z hz => hKeep z (by grind)
        · refine ⟨rfl, ?_, r, ?_, ?_⟩
          · rw [TreeHeap.setLc_rc]
            exact hRt.congr (fun z hz => hKeep z (by grind))
          · apply hInv.rightOpen.setLc
            exact List.nodup_cons.mpr ⟨hRight, hNodupR⟩
          · rw [TreeHeap.setLc_lc_self]
        · rw [← hInv.nodes_eq]
          simp [BinTree.rightList]
        · exact hInv.nodup
        · intro z
          rw [TreeHeap.setLc_data]
          exact hInv.data z
        · intro z hn hz
          have hOut := hInv.outside hz
          exact (hKeep z (by grind)).trans
            (hInv.frame z hn hz)

theorem linkL
    {lt rt : BinTree Nat}
    {x : Nat}
    (hInv : SplayInv heap n nodes s
      (.node lt x rt) left right)
    (hNode : rt ≠ .nil) :
    ∃ s', s.linkL = some s' ∧
      SplayInv heap n nodes s' rt ((lt, x) :: left)
        right := by
  rcases hInv.apart with
    ⟨hTree, hLeft, hRight, hNodup, hNodupL, -, hApart,
      hCross⟩
  rcases s with ⟨h, l, r, t⟩
  rcases hInv.points with ⟨hx, hLt, hRt⟩
  have hx : t = x := Option.some.inj hx
  subst hx
  simp only [BinTree.toList_node, List.nodup_append,
    List.nodup_cons, List.mem_append, List.mem_cons]
    at hTree hNodup hApart
  have hMem := hInv.leftOpen.mem
  have hKeep : ∀ z, z ≠ l →
      h.setRc l (some t) z = h z :=
    fun z hz => TreeHeap.setRc_of_ne hz
  have htl : t ≠ l := by grind
  cases hRc : (h t).rc with
  | none => exact absurd (hRt.eq_none_iff.mp hRc) hNode
  | some y =>
      have hNext :
          (h.setRc l (some t) t).rc = some y := by
        rw [hKeep t htl, hRc]
      refine ⟨⟨h.setRc l (some t), t, r, y⟩,
        ?_, ?_⟩
      · simp [SplayState.linkL, hNext]
      · constructor
        · rw [← hRc]
          exact hRt.congr (fun z hz => hKeep z (by grind))
        · refine ⟨rfl, ?_, l, ?_, ?_⟩
          · rw [TreeHeap.setRc_lc]
            exact hLt.congr (fun z hz => hKeep z (by grind))
          · apply hInv.leftOpen.setRc
            exact List.nodup_cons.mpr ⟨hLeft, hNodupL⟩
          · rw [TreeHeap.setRc_rc_self]
        · apply hInv.rightOpen.congr
          · exact TreeHeap.setRc_lc _ _ _ _
          · exact fun z hz => hKeep z (by grind)
        · rw [← hInv.nodes_eq]
          simp [BinTree.leftList]
        · exact hInv.nodup
        · intro z
          rw [TreeHeap.setRc_data]
          exact hInv.data z
        · intro z hn hz
          have hOut := hInv.outside hz
          exact (hKeep z (by grind)).trans
            (hInv.frame z hn hz)

/-
  The statements behind the loop close both spines around
  the node the loop stopped at.
-/
theorem splayed
    {lt rt : BinTree Nat}
    {x : Nat}
    (hInv : SplayInv heap n nodes s
      (.node lt x rt) left right) :
    Splayed heap n nodes (s.close n) s.t
      (BinTree.assemble left lt x rt right) := by
  rcases hInv.apart with
    ⟨hTree, hLeft, hRight, hNodup, hNodupL, hNodupR, hApart,
      hCross⟩
  rcases s with ⟨h, l, r, t⟩
  rcases hInv.points with ⟨hx, hLt, hRt⟩
  have hx : t = x := Option.some.inj hx
  subst hx
  simp only [BinTree.toList_node, List.nodup_append,
    List.nodup_cons, List.mem_append, List.mem_cons]
    at hTree hNodup hApart
  have hMemL := hInv.leftOpen.mem
  have hMemR := hInv.rightOpen.mem
  have htl : t ≠ l := by grind
  have htr : t ≠ r := by grind
  -- the left partial tree, closed over the left child
  let h1 := h.setRc l (h t).lc
  have hKeep1 : ∀ z, z ≠ l → h1 z = h z :=
    fun z hz => TreeHeap.setRc_of_ne hz
  have hClosedL :
      h1.Points (h1 n).rc (BinTree.linkLeft left lt) := by
    have hOpen : h1.LeftOpen n left l := by
      apply hInv.leftOpen.setRc
      exact List.nodup_cons.mpr ⟨hLeft, hNodupL⟩
    apply hOpen.close
    rw [TreeHeap.setRc_rc_self]
    exact hLt.congr (fun z hz => hKeep1 z (by grind))
  -- the right partial tree, closed over the right child
  let h2 := h1.setLc r (h1 t).rc
  have hKeep2 : ∀ z, z ≠ r → h2 z = h1 z :=
    fun z hz => TreeHeap.setLc_of_ne hz
  have hClosedR :
      h2.Points (h2 n).lc (BinTree.linkRight right rt) := by
    have hOpen : h1.RightOpen n right r := by
      apply hInv.rightOpen.congr
      · exact TreeHeap.setRc_lc _ _ _ _
      · exact fun z hz => hKeep1 z (by grind)
    have hOpen2 : h2.RightOpen n right r := by
      apply hOpen.setLc
      exact List.nodup_cons.mpr ⟨hRight, hNodupR⟩
    apply hOpen2.close
    rw [TreeHeap.setLc_lc_self, hKeep1 t htl]
    apply hRt.congr
    intro z hz
    rw [hKeep2 z (by grind), hKeep1 z (by grind)]
  -- the header's two trees become the children of the root
  let h3 := h2.setLc t (h2 n).rc
  let h4 := h3.setRc t (h3 n).lc
  have hKeep4 : ∀ z, z ≠ t → h4 z = h2 z := by
    intro z hz
    exact (TreeHeap.setRc_of_ne hz).trans
      (TreeHeap.setLc_of_ne hz)
  refine ⟨⟨rfl, ?_, ?_⟩, ?_, ?_⟩
  · change h4.Points (h4 t).lc _
    have hLc : (h4 t).lc = (h1 n).rc := by
      rw [TreeHeap.setRc_lc, TreeHeap.setLc_lc_self,
        TreeHeap.setLc_rc]
    rw [hLc]
    apply hClosedL.congr
    intro z hz
    rw [BinTree.toList_linkLeft, List.mem_append] at hz
    rw [hKeep4 z (by grind), hKeep2 z (by grind)]
  · change h4.Points (h4 t).rc _
    have hn : n ≠ t := by grind
    have hRc : (h4 t).rc = (h2 n).lc := by
      rw [TreeHeap.setRc_rc_self]
      exact congrArg TreeCell.lc (TreeHeap.setLc_of_ne hn)
    rw [hRc]
    apply hClosedR.congr
    intro z hz
    rw [BinTree.toList_linkRight, List.mem_append] at hz
    exact hKeep4 z (by grind)
  · intro z
    have hData := hInv.data z
    simpa [SplayState.close] using hData
  · intro z hn hz
    have hOut := hInv.outside hz
    simp only [BinTree.toList_node, List.mem_append,
      List.mem_cons] at hOut
    change h4 z = heap z
    rw [hKeep4 z (by grind), hKeep2 z (by grind),
      hKeep1 z (by grind)]
    exact hInv.frame z hn hz

------------------------------------------------------------
-- The Turns of the Loop
------------------------------------------------------------

section Turns

variable {key x y : Nat}
variable {a b lt rt : BinTree Nat}

/- The body may rotate before it looks for a child. -/
theorem zigLc_rotates
    (hInv : SplayInv heap n nodes s
      (.node (.node a y b) x rt) left right)
    (hLt : key < heap.base y) :
    SplayInv heap n nodes (s.zigLc key)
      (.node a y (.node b x rt)) left right := by
  rcases hInv.points with ⟨hx, ⟨hy, -, -⟩, -⟩
  have hx : s.t = x := Option.some.inj hx
  have hZig : s.zigLc key = s.rotateLc y := by
    unfold SplayState.zigLc
    rw [hx, hy]
    exact if_pos (by rwa [hInv.base_eq])
  exact hZig ▸ hInv.rotateLc

theorem zigLc_stays
    (key : Nat)
    (hInv : SplayInv heap n nodes s
      (.node lt x rt) left right)
    (hStays : ∀ a y b, lt = .node a y b →
      ¬key < heap.base y) :
    SplayInv heap n nodes (s.zigLc key)
      (.node lt x rt) left right := by
  rcases hInv.points with ⟨hx, hLt, -⟩
  have hx : s.t = x := Option.some.inj hx
  have hZig : s.zigLc key = s := by
    unfold SplayState.zigLc
    rw [hx]
    cases lt with
    | nil =>
        have hNone : (s.heap x).lc = none := hLt
        rw [hNone]
    | node a y b =>
        rw [hLt.1]
        apply if_neg
        rw [hInv.base_eq]
        exact hStays a y b rfl
  exact hZig.symm ▸ hInv

theorem zigRc_rotates
    (hInv : SplayInv heap n nodes s
      (.node lt x (.node a y b)) left right)
    (hGt : heap.base y < key) :
    SplayInv heap n nodes (s.zigRc key)
      (.node (.node lt x a) y b) left right := by
  rcases hInv.points with ⟨hx, -, hy, -, -⟩
  have hx : s.t = x := Option.some.inj hx
  have hZig : s.zigRc key = s.rotateRc y := by
    unfold SplayState.zigRc
    rw [hx, hy]
    exact if_pos (by rwa [hInv.base_eq])
  exact hZig ▸ hInv.rotateRc

theorem zigRc_stays
    (key : Nat)
    (hInv : SplayInv heap n nodes s
      (.node lt x rt) left right)
    (hStays : ∀ a y b, rt = .node a y b →
      ¬heap.base y < key) :
    SplayInv heap n nodes (s.zigRc key)
      (.node lt x rt) left right := by
  rcases hInv.points with ⟨hx, -, hRt⟩
  have hx : s.t = x := Option.some.inj hx
  have hZig : s.zigRc key = s := by
    unfold SplayState.zigRc
    rw [hx]
    cases rt with
    | nil =>
        have hNone : (s.heap x).rc = none := hRt
        rw [hNone]
    | node a y b =>
        rw [hRt.1]
        apply if_neg
        rw [hInv.base_eq]
        exact hStays a y b rfl
  exact hZig.symm ▸ hInv

/- The root is what the loop compares the key with. -/
theorem base_root
    (hInv : SplayInv heap n nodes s
      (.node lt x rt) left right) :
    s.heap.base s.t = heap.base x := by
  rw [hInv.base_eq, Option.some.inj hInv.points.1]

/- Without a left child the loop ends. -/
theorem body_stopsLc
    (hLt : key < s.heap.base s.t)
    (hInv : SplayInv heap n nodes (s.zigLc key)
      (.node .nil x rt) left right) :
    splayBody key s = some (s.zigLc key, false) := by
  rcases hInv.points with ⟨hx, hNone, -⟩
  have hx : (s.zigLc key).t = x := Option.some.inj hx
  have hNone : ((s.zigLc key).heap x).lc = none := hNone
  unfold splayBody
  rw [if_pos hLt]
  simp only [hx, hNone, if_true]

/- With one it goes on there. -/
theorem body_goesLc
    (hLt : key < s.heap.base s.t)
    (hInv : SplayInv heap n nodes (s.zigLc key)
      (.node lt x rt) left right)
    (hNode : lt ≠ .nil) :
    ∃ s', splayBody key s = some (s', true) ∧
      SplayInv heap n nodes s' lt left
        ((x, rt) :: right) := by
  rcases hInv.points with ⟨hx, hLc, -⟩
  have hx : (s.zigLc key).t = x := Option.some.inj hx
  have hSome : ((s.zigLc key).heap x).lc ≠ none :=
    fun hNone => hNode (hLc.eq_none_iff.mp hNone)
  rcases hInv.linkR hNode with ⟨s', hLink, hInv'⟩
  refine ⟨s', ?_, hInv'⟩
  unfold splayBody
  rw [if_pos hLt]
  simp only [hx, hSome, if_false, hLink, Option.map_some]

theorem body_stopsRc
    (hGt : s.heap.base s.t < key)
    (hInv : SplayInv heap n nodes (s.zigRc key)
      (.node lt x .nil) left right) :
    splayBody key s = some (s.zigRc key, false) := by
  rcases hInv.points with ⟨hx, -, hNone⟩
  have hx : (s.zigRc key).t = x := Option.some.inj hx
  have hNone : ((s.zigRc key).heap x).rc = none := hNone
  unfold splayBody
  rw [if_neg (by omega), if_pos hGt]
  simp only [hx, hNone, if_true]

theorem body_goesRc
    (hGt : s.heap.base s.t < key)
    (hInv : SplayInv heap n nodes (s.zigRc key)
      (.node lt x rt) left right)
    (hNode : rt ≠ .nil) :
    ∃ s', splayBody key s = some (s', true) ∧
      SplayInv heap n nodes s' rt ((lt, x) :: left)
        right := by
  rcases hInv.points with ⟨hx, -, hRc⟩
  have hx : (s.zigRc key).t = x := Option.some.inj hx
  have hSome : ((s.zigRc key).heap x).rc ≠ none :=
    fun hNone => hNode (hRc.eq_none_iff.mp hNone)
  rcases hInv.linkL hNode with ⟨s', hLink, hInv'⟩
  refine ⟨s', ?_, hInv'⟩
  unfold splayBody
  rw [if_neg (by omega), if_pos hGt]
  simp only [hx, hSome, if_false, hLink, Option.map_some]

end Turns

end SplayInv


/- The loop ends in `s'` after at most `bound` turns. -/
def LoopEnds
    (key bound : Nat)
    (s s' : SplayState ρ) :
    Prop :=
  ∀ fuel, bound ≤ fuel → splayLoopAt key fuel s = some s'

theorem loopEnds_of_stop
    {key bound : Nat}
    {s s' : SplayState ρ}
    (hBody : splayBody key s = some (s', false))
    (hBound : 0 < bound) :
    LoopEnds key bound s s' := by
  intro fuel hFuel
  cases fuel with
  | zero => omega
  | succ fuel => simp [splayLoopAt, hBody]

theorem loopEnds_of_next
    {key bound rest : Nat}
    {s s1 s' : SplayState ρ}
    (hBody : splayBody key s = some (s1, true))
    (hRest : LoopEnds key rest s1 s')
    (hBound : rest < bound) :
    LoopEnds key bound s s' := by
  intro fuel hFuel
  cases fuel with
  | zero => omega
  | succ fuel =>
      have hEnd := hRest fuel (by omega)
      simp [splayLoopAt, hBody, hEnd]

theorem length_node_pos
    (lt : BinTree Nat)
    (x : Nat)
    (rt : BinTree Nat) :
    0 < (BinTree.node lt x rt).toList.length :=
  List.length_pos_iff.mpr (by simp)

/-
  The loop in memory makes the turns of the descent on
  trees; the nodes below `t` bound their number.
-/
theorem splayLoopAt_splayLoop
    (key : Nat)
    {heap : NodeHeap ρ}
    {n : Nat}
    {nodes : List Nat}
    {s : SplayState ρ}
    {tree : BinTree Nat}
    {left : List (BinTree Nat × Nat)}
    {right : List (Nat × BinTree Nat)}
    (hInv : SplayInv heap n nodes s tree left right)
    (hNode : tree ≠ .nil) :
    ∃ s', LoopEnds key tree.toList.length s s' ∧
      Splayed heap n nodes (s'.close n) s'.t
        (BinTree.splayLoop heap.base key tree left
          right) := by
  fun_induction BinTree.splayLoop heap.base key tree left
    right generalizing s with
  | case1 left right => exact absurd rfl hNode
  | case2 x rt left right hLt =>
      rw [← hInv.base_root] at hLt
      have hZig := hInv.zigLc_stays key (by simp)
      have hBody := SplayInv.body_stopsLc hLt hZig
      exact ⟨_, loopEnds_of_stop hBody
        (length_node_pos _ _ _), hZig.splayed⟩
  | case3 x rt left right hLt y b hLt' =>
      rw [← hInv.base_root] at hLt
      have hZig := hInv.zigLc_rotates hLt'
      have hBody := SplayInv.body_stopsLc hLt hZig
      exact ⟨_, loopEnds_of_stop hBody
        (length_node_pos _ _ _), hZig.splayed⟩
  | case4 x rt left right hLt y b hLt' la ly lb ih =>
      rw [← hInv.base_root] at hLt
      have hZig := hInv.zigLc_rotates hLt'
      rcases SplayInv.body_goesLc hLt hZig (by simp) with
        ⟨s1, hBody, hNext⟩
      rcases ih hNext (by simp) with ⟨s', hEnds, hSplayed⟩
      refine ⟨s', loopEnds_of_next hBody hEnds ?_, hSplayed⟩
      simp
  | case5 x rt left right hLt a y b hLt' ih =>
      rw [← hInv.base_root] at hLt
      have hZig := hInv.zigLc_stays key (by
        intro la ly lb hEq
        cases hEq
        exact hLt')
      rcases SplayInv.body_goesLc hLt hZig (by simp) with
        ⟨s1, hBody, hNext⟩
      rcases ih hNext (by simp) with ⟨s', hEnds, hSplayed⟩
      refine ⟨s', loopEnds_of_next hBody hEnds ?_, hSplayed⟩
      simp
  | case6 lt x left right hLt hGt =>
      rw [← hInv.base_root] at hGt
      have hZig := hInv.zigRc_stays key (by simp)
      have hBody := SplayInv.body_stopsRc hGt hZig
      exact ⟨_, loopEnds_of_stop hBody
        (length_node_pos _ _ _), hZig.splayed⟩
  | case7 lt x left right hLt hGt a y hGt' =>
      rw [← hInv.base_root] at hGt
      have hZig := hInv.zigRc_rotates hGt'
      have hBody := SplayInv.body_stopsRc hGt hZig
      exact ⟨_, loopEnds_of_stop hBody
        (length_node_pos _ _ _), hZig.splayed⟩
  | case8 lt x left right hLt hGt a y hGt' la ly lb ih =>
      rw [← hInv.base_root] at hGt
      have hZig := hInv.zigRc_rotates hGt'
      rcases SplayInv.body_goesRc hGt hZig (by simp) with
        ⟨s1, hBody, hNext⟩
      rcases ih hNext (by simp) with ⟨s', hEnds, hSplayed⟩
      refine ⟨s', loopEnds_of_next hBody hEnds ?_, hSplayed⟩
      simp
      omega
  | case9 lt x left right hLt hGt a y b hGt' ih =>
      rw [← hInv.base_root] at hGt
      have hZig := hInv.zigRc_stays key (by
        intro la ly lb hEq
        cases hEq
        exact hGt')
      rcases SplayInv.body_goesRc hGt hZig (by simp) with
        ⟨s1, hBody, hNext⟩
      rcases ih hNext (by simp) with ⟨s', hEnds, hSplayed⟩
      refine ⟨s', loopEnds_of_next hBody hEnds ?_, hSplayed⟩
      simp
      omega
  | case10 lt x rt left right hLt hGt =>
      rw [← hInv.base_root] at hLt hGt
      have hBody : splayBody key s = some (s, false) := by
        unfold splayBody
        rw [if_neg hLt, if_neg hGt]
      exact ⟨_, loopEnds_of_stop hBody
        (length_node_pos _ _ _), hInv.splayed⟩

------------------------------------------------------------
-- Splaying a Tree in Memory
------------------------------------------------------------

/- The tree of the ranges that the nodes hold. -/
def NodeHeap.rangeTree
    (heap : NodeHeap ρ)
    (tree : BinTree Nat) :
    RangeNode ρ :=
  tree.map (fun a => (heap a).data)

theorem NodeHeap.rangeTree_congr
    {heap heap' : NodeHeap ρ}
    (h : ∀ a, (heap' a).data = (heap a).data)
    (tree : BinTree Nat) :
    heap'.rangeTree tree = heap.rangeTree tree := by
  unfold NodeHeap.rangeTree
  simp only [h]

/- Before the first turn both partial trees are empty. -/
theorem splayInv_start
    {heap : NodeHeap ρ}
    {n t : Nat}
    {tree : BinTree Nat}
    (hPoints : heap.Points (some t) tree)
    (hLocal : n ∉ tree.toList)
    (hNodup : tree.toList.Nodup) :
    SplayInv heap n tree.toList
      ⟨(heap.setLc n none).setRc n none, n, n, t⟩
      tree [] [] := by
  have hKeep : ∀ a, a ≠ n →
      (heap.setLc n none).setRc n none a = heap a := by
    intro a ha
    rw [TreeHeap.setRc_of_ne ha, TreeHeap.setLc_of_ne ha]
  constructor
  · apply hPoints.congr
    intro a ha
    exact hKeep a (fun hn => hLocal (hn ▸ ha))
  · rfl
  · rfl
  · simp [BinTree.leftList, BinTree.rightList]
  · exact List.nodup_cons.mpr ⟨hLocal, hNodup⟩
  · intro a
    rw [TreeHeap.setRc_data, TreeHeap.setLc_data]
  · exact fun a ha _ => hKeep a ha

/-
  On a tree in memory the source builds the tree that
  `splay` builds from its ranges. It writes to the nodes of
  the tree and to its local node only.
-/
theorem splayAt_splay
    {heap : NodeHeap ρ}
    {n : Nat}
    {p : Option Nat}
    {tree : BinTree Nat}
    (key : Nat)
    (hPoints : heap.Points p tree)
    (hLocal : n ∉ tree.toList)
    (hNodup : tree.toList.Nodup) :
    ∃ heap' p' tree',
      (∀ fuel, tree.toList.length ≤ fuel →
        splayAt fuel n heap p key = some (heap', p')) ∧
      heap'.Points p' tree' ∧
      NodeHeap.rangeTree heap' tree' =
        splay (heap.rangeTree tree) key ∧
      ∀ a, a ≠ n → a ∉ tree.toList → heap' a = heap a := by
  cases tree with
  | nil =>
      have hp : p = none := hPoints
      subst hp
      exact ⟨heap, none, .nil, fun _ _ => rfl, rfl, rfl,
        fun _ _ _ => rfl⟩
  | node lt x rt =>
      have hp : p = some x := hPoints.1
      subst hp
      have hNode : BinTree.node lt x rt ≠ .nil := by simp
      have hStart := splayInv_start hPoints hLocal hNodup
      rcases splayLoopAt_splayLoop key hStart hNode with
        ⟨s, hEnds, hSplayed⟩
      refine ⟨s.close n, some s.t, _, ?_, hSplayed.points,
        ?_, hSplayed.frame⟩
      · intro fuel hFuel
        simp [splayAt, hEnds fuel hFuel]
      · rw [NodeHeap.rangeTree_congr hSplayed.data]
        exact BinTree.map_splay (fun a => (heap a).data)
          MemRange.base (.node lt x rt) key

/-
  The range of a list that is closest to a key: based at the
  key, or else the last one below it or the first one above.
-/
def ClosestTo
    (ranges : List (MemRange ρ))
    (key : Nat)
    (r : MemRange ρ) :
    Prop :=
  r ∈ ranges ∧
    (r.base = key ∨
      (∀ q ∈ ranges, q.base ≠ key) ∧
        (r.base < key ∧
            (∀ q ∈ ranges, q.base < key → q.base ≤ r.base) ∨
          key < r.base ∧
            ∀ q ∈ ranges, key < q.base → r.base ≤ q.base))

/- A root that splits a list at the key is closest to it. -/
theorem closestTo_of_split
    {lower upper : List (MemRange ρ)}
    {r : MemRange ρ}
    {key : Nat}
    (hOrder : (lower ++ r :: upper).Pairwise
      (fun q r => q.base < r.base))
    (hLower : ∀ q ∈ lower, q.base < key)
    (hUpper : ∀ q ∈ upper, key < q.base) :
    ClosestTo (lower ++ r :: upper) key r := by
  rw [List.pairwise_append, List.pairwise_cons] at hOrder
  rcases hOrder with ⟨-, ⟨hAbove, -⟩, hCross⟩
  have hBelow : ∀ q ∈ lower, q.base < r.base :=
    fun q hq => hCross q hq r List.mem_cons_self
  refine ⟨by simp, ?_⟩
  by_cases hKey : r.base = key
  · exact .inl hKey
  · right
    constructor
    · intro q hq
      rcases List.mem_append.mp hq with hq | hq
      · exact Nat.ne_of_lt (hLower q hq)
      · rcases List.mem_cons.mp hq with rfl | hq
        · exact hKey
        · exact Nat.ne_of_gt (hUpper q hq)
    · rcases Nat.lt_or_gt_of_ne hKey with hLt | hGt
      · refine .inl ⟨hLt, ?_⟩
        intro q hq hqKey
        rcases List.mem_append.mp hq with hq | hq
        · exact Nat.le_of_lt (hBelow q hq)
        · rcases List.mem_cons.mp hq with rfl | hq
          · exact Nat.le_refl _
          · exact absurd (hUpper q hq) (by omega)
      · refine .inr ⟨hGt, ?_⟩
        intro q hq hqKey
        rcases List.mem_append.mp hq with hq | hq
        · exact absurd (hLower q hq) (by omega)
        · rcases List.mem_cons.mp hq with rfl | hq
          · exact Nat.le_refl _
          · exact Nat.le_of_lt (hAbove q hq)

/-
  `splay` on a search tree in memory with different bases:
  it ends, keeps the ranges in order, puts the bases below
  the key left of the root and those above it right, and the
  root is closest to the key.
-/
theorem splayAt_spec
    {heap : NodeHeap ρ}
    {n : Nat}
    {p : Option Nat}
    {tree : BinTree Nat}
    (key : Nat)
    (hPoints : heap.Points p tree)
    (hNode : tree ≠ .nil)
    (hLocal : n ∉ tree.toList)
    (hSearch :
      BinTree.Ordered MemRange.base (heap.rangeTree tree)) :
    ∃ heap' root lt rt,
      (∀ fuel, tree.toList.length ≤ fuel →
        splayAt fuel n heap p key =
          some (heap', some root)) ∧
      heap'.Points (some root) (.node lt root rt) ∧
      (NodeHeap.rangeTree heap' (.node lt root rt)).toList =
        (heap.rangeTree tree).toList ∧
      (∀ a ∈ lt.toList, NodeHeap.base heap' a < key) ∧
      (∀ a ∈ rt.toList, key < NodeHeap.base heap' a) ∧
      ClosestTo (heap.rangeTree tree).toList key
        (heap' root).data ∧
      ∀ a, a ≠ n → a ∉ tree.toList → heap' a = heap a := by
  have hNodup : tree.toList.Nodup := by
    unfold BinTree.Ordered NodeHeap.rangeTree at hSearch
    rw [BinTree.toList_map, List.pairwise_map] at hSearch
    apply hSearch.imp
    intro a b hLt hEq
    rw [hEq] at hLt
    exact Nat.lt_irrefl _ hLt
  rcases splayAt_splay key hPoints hLocal hNodup with
    ⟨heap', p', tree', hEnds, hPoints', hTree, hFrame⟩
  have hRange : heap.rangeTree tree ≠ .nil := by
    cases tree with
    | nil => exact absurd rfl hNode
    | node lt x rt => simp [NodeHeap.rangeTree, BinTree.map]
  rcases BinTree.splay_spec MemRange.base key hRange
      hSearch with ⟨lc, r, rc, hSplay, hList, hLc, hRc⟩
  cases tree' with
  | nil =>
      have hNil : BinTree.nil = .node lc r rc :=
        hTree.trans hSplay
      cases hNil
  | node lt root rt =>
      have hp : p' = some root := hPoints'.1
      subst hp
      have hParts :
          BinTree.node (NodeHeap.rangeTree heap' lt)
              (heap' root).data
              (NodeHeap.rangeTree heap' rt) =
            .node lc r rc :=
        hTree.trans hSplay
      injection hParts with hLt hRoot hRt
      refine ⟨heap', root, lt, rt, hEnds, hPoints', ?_, ?_,
        ?_, ?_, hFrame⟩
      · rw [hTree]
        exact BinTree.toList_splay _ _ _
      · intro a ha
        apply hLc
        rw [← hLt, NodeHeap.rangeTree, BinTree.toList_map]
        exact List.mem_map_of_mem ha
      · intro a ha
        apply hRc
        rw [← hRt, NodeHeap.rangeTree, BinTree.toList_map]
        exact List.mem_map_of_mem ha
      · rw [hRoot, ← hList]
        apply closestTo_of_split _ hLc hRc
        rw [hList]
        exact hSearch

/- Three one-byte ranges, the middle one at the root. -/
def threeTree : BinTree Nat :=
  .node (.node .nil 1 .nil) 2 (.node .nil 3 .nil)

def threeNodes : NodeHeap Unit := fun a =>
  { lc := if a = 2 then some 1 else none
    rc := if a = 2 then some 3 else none
    data := newNode (10 * a) 1 none }

theorem splayAt_spec_three :
    ∃ heap' root,
      splayAt 3 9 threeNodes (some 2) 25 =
        some (heap', some root) ∧
      ClosestTo (threeNodes.rangeTree threeTree).toList 25
        (heap' root).data := by
  have hPoints : threeNodes.Points (some 2) threeTree := by
    simp [TreeHeap.Points, threeTree, threeNodes]
  have hSearch : BinTree.Ordered MemRange.base
      (threeNodes.rangeTree threeTree) := by
    simp [BinTree.Ordered, NodeHeap.rangeTree, threeTree,
      threeNodes, newNode]
  rcases splayAt_spec (n := 9) 25 hPoints
      (by simp [threeTree]) (by decide) hSearch with
    ⟨heap', root, lt, rt, hEnds, -, -, -, -, hClosest, -⟩
  exact ⟨heap', root, hEnds 3 (by decide), hClosest⟩

end Cbop
