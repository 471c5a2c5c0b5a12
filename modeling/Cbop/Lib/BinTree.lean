import Mathlib.Order.Lattice
import Mathlib.Data.List.Basic
import Mathlib.Tactic.Common

/-
  Binary trees read through their in-order list, and
  top-down splaying.

  A splay descends from the root and hangs every node it
  leaves behind on one of two spines: the left spine
  collects what precedes the key, the right spine what
  follows it. `assemble` closes both spines around the node
  the descent stops at.

  Main declarations:
    * `BinTree.toList`
    * `BinTree.splay`
    * `BinTree.toList_splay`
    * `BinTree.splay_spec`
    * `BinTree.splay_of_stays`, `BinTree.splay_of_left`,
      `BinTree.splay_of_right`
-/

------------------------------------------------------------
-- Trees
------------------------------------------------------------

/- Binary trees with their data in the inner nodes. -/
inductive BinTree (α : Type) where
| nil : BinTree α
| node : BinTree α → α → BinTree α → BinTree α
deriving DecidableEq, Repr

namespace BinTree

variable {α κ : Type}

/- The tree has no node. -/
def isNil : BinTree α → Bool
| .nil => true
| .node _ _ _ => false

/- The in-order list of a tree. -/
def toList : BinTree α → List α
| .nil => []
| .node lc r rc => lc.toList ++ r :: rc.toList

@[simp] theorem toList_nil :
    (nil : BinTree α).toList = [] := rfl

@[simp] theorem toList_node
    (lc : BinTree α)
    (r : α)
    (rc : BinTree α) :
    (node lc r rc).toList =
      lc.toList ++ r :: rc.toList := rfl

@[simp] theorem isNil_iff
    (t : BinTree α) :
    t.isNil = true ↔ t = .nil := by
  cases t with
  | nil => simp [isNil]
  | node lc r rc => simp [isNil]

@[simp] theorem toList_eq_nil_iff
    (t : BinTree α) :
    t.toList = [] ↔ t = .nil := by
  cases t with
  | nil => simp
  | node lc r rc => simp

/- Replace the data of every node. -/
def map {β : Type} (f : α → β) : BinTree α → BinTree β
| .nil => .nil
| .node lc r rc => .node (lc.map f) (f r) (rc.map f)

@[simp] theorem toList_map
    {β : Type}
    (f : α → β)
    (t : BinTree α) :
    (t.map f).toList = t.toList.map f := by
  induction t with
  | nil => rfl
  | node lc r rc ihl ihr => simp [map, ihl, ihr]

------------------------------------------------------------
-- Spines
------------------------------------------------------------

/-
  Close a left spine over a subtree. Each entry is a node
  whose right child is the rest of the spine; the head of
  the list is the entry linked last.
-/
def linkLeft :
    List (BinTree α × α) → BinTree α → BinTree α
| [], t => t
| (lc, r) :: spine, t => linkLeft spine (.node lc r t)

/- Close a right spine, the mirror image of `linkLeft`. -/
def linkRight :
    List (α × BinTree α) → BinTree α → BinTree α
| [], t => t
| (r, rc) :: spine, t => linkRight spine (.node t r rc)

/- The in-order contents of a left spine. -/
def leftList : List (BinTree α × α) → List α
| [] => []
| (lc, r) :: spine => leftList spine ++ (lc.toList ++ [r])

/- The in-order contents of a right spine. -/
def rightList : List (α × BinTree α) → List α
| [] => []
| (r, rc) :: spine => (r :: rc.toList) ++ rightList spine

@[simp] theorem toList_linkLeft
    (spine : List (BinTree α × α))
    (t : BinTree α) :
    (linkLeft spine t).toList =
      leftList spine ++ t.toList := by
  induction spine generalizing t with
  | nil => simp [linkLeft, leftList]
  | cons entry spine ih =>
      simp [linkLeft, leftList, ih]

@[simp] theorem toList_linkRight
    (spine : List (α × BinTree α))
    (t : BinTree α) :
    (linkRight spine t).toList =
      t.toList ++ rightList spine := by
  induction spine generalizing t with
  | nil => simp [linkRight, rightList]
  | cons entry spine ih =>
      simp [linkRight, rightList, ih]

/- Close both spines around the node reached. -/
def assemble
    (left : List (BinTree α × α))
    (lc : BinTree α)
    (r : α)
    (rc : BinTree α)
    (right : List (α × BinTree α)) :
    BinTree α :=
  .node (linkLeft left lc) r (linkRight right rc)

------------------------------------------------------------
-- Top-Down Splaying
------------------------------------------------------------

section Splay

variable [LinearOrder κ]

/-
  One descent of the top-down splay. Two steps in the same
  direction rotate before the link; the descent stops when
  the child it needs is missing or the key is found.
-/
def splayLoop
    (key : α → κ)
    (k : κ) :
    BinTree α →
      List (BinTree α × α) →
      List (α × BinTree α) →
      BinTree α
| .nil, left, right =>
    -- never entered: the descent only visits nodes
    linkLeft left (linkRight right .nil)
| .node lc r rc, left, right =>
    if k < key r then
      match lc with
      | .nil => assemble left .nil r rc right
      | .node llc lr lrc =>
          if k < key lr then
            -- the child becomes the root of this step
            match llc with
            | .nil =>
                assemble left .nil lr
                  (.node lrc r rc) right
            | .node a b c =>
                splayLoop key k (.node a b c) left
                  ((lr, .node lrc r rc) :: right)
          else
            splayLoop key k (.node llc lr lrc) left
              ((r, rc) :: right)
    else if key r < k then
      match rc with
      | .nil => assemble left lc r .nil right
      | .node rlc rr rrc =>
          if key rr < k then
            match rrc with
            | .nil =>
                assemble left (.node lc r rlc) rr
                  .nil right
            | .node a b c =>
                splayLoop key k (.node a b c)
                  ((.node lc r rlc, rr) :: left) right
          else
            splayLoop key k (.node rlc rr rrc)
              ((lc, r) :: left) right
    else
      assemble left lc r rc right

/- Splay a tree at a key. -/
def splay
    (key : α → κ)
    (t : BinTree α)
    (k : κ) :
    BinTree α :=
  match t with
  | .nil => .nil
  | .node lc r rc => splayLoop key k (.node lc r rc) [] []

/- A descent only moves nodes: the in-order list stays. -/
theorem toList_splayLoop
    (key : α → κ)
    (k : κ)
    (t : BinTree α)
    (left : List (BinTree α × α))
    (right : List (α × BinTree α)) :
    (splayLoop key k t left right).toList =
      leftList left ++ t.toList ++ rightList right := by
  fun_induction splayLoop key k t left right <;>
    simp_all [assemble, leftList, rightList]

@[simp] theorem toList_splay
    (key : α → κ)
    (t : BinTree α)
    (k : κ) :
    (splay key t k).toList = t.toList := by
  cases t with
  | nil => rfl
  | node lc r rc =>
      simp [splay, toList_splayLoop, leftList, rightList]

section Map

variable {β : Type} (f : α → β)

theorem map_linkLeft
    (spine : List (BinTree α × α))
    (t : BinTree α) :
    (linkLeft spine t).map f =
      linkLeft (spine.map (Prod.map (map f) f))
        (t.map f) := by
  induction spine generalizing t with
  | nil => rfl
  | cons entry spine ih => simp [linkLeft, ih, map]

theorem map_linkRight
    (spine : List (α × BinTree α))
    (t : BinTree α) :
    (linkRight spine t).map f =
      linkRight (spine.map (Prod.map f (map f)))
        (t.map f) := by
  induction spine generalizing t with
  | nil => rfl
  | cons entry spine ih => simp [linkRight, ih, map]

/- A descent only looks at the keys of the nodes. -/
theorem map_splayLoop
    (key : β → κ)
    (k : κ)
    (t : BinTree α)
    (left : List (BinTree α × α))
    (right : List (α × BinTree α)) :
    (splayLoop (fun a => key (f a)) k t left right).map f =
      splayLoop key k (t.map f)
        (left.map (Prod.map (map f) f))
        (right.map (Prod.map f (map f))) := by
  fun_induction splayLoop (fun a => key (f a)) k t left
      right with
  | case1 left right =>
      simp [splayLoop, map_linkLeft, map_linkRight, map]
  | case2 r rc left right hLt =>
      conv_rhs => unfold splayLoop map
      simp [hLt, assemble, map_linkLeft, map_linkRight, map]
  | case3 r rc left right hLt lr lrc hLt' =>
      conv_rhs => unfold splayLoop map
      simp [hLt, hLt', assemble, map_linkLeft,
        map_linkRight, map]
  | case4 r rc left right hLt lr lrc hLt' a b c ih =>
      conv_rhs => unfold splayLoop map
      simpa [hLt, hLt', map] using ih
  | case5 r rc left right hLt llc lr lrc hLt' ih =>
      conv_rhs => unfold splayLoop map
      simpa [hLt, hLt', map] using ih
  | case6 lc r left right hLt hGt =>
      conv_rhs => unfold splayLoop map
      simp [hLt, hGt, assemble, map_linkLeft,
        map_linkRight, map]
  | case7 lc r left right hLt hGt rlc rr hGt' =>
      conv_rhs => unfold splayLoop map
      simp [hLt, hGt, hGt', assemble, map_linkLeft,
        map_linkRight, map]
  | case8 lc r left right hLt hGt rlc rr hGt' a b c ih =>
      conv_rhs => unfold splayLoop map
      simpa [hLt, hGt, hGt', map] using ih
  | case9 lc r left right hLt hGt rlc rr rrc hGt' ih =>
      conv_rhs => unfold splayLoop map
      simpa [hLt, hGt, hGt', map] using ih
  | case10 lc r rc left right hLt hGt =>
      conv_rhs => unfold splayLoop map
      simp [hLt, hGt, assemble, map_linkLeft,
        map_linkRight, map]

theorem map_splay
    (key : β → κ)
    (t : BinTree α)
    (k : κ) :
    (splay (fun a => key (f a)) t k).map f =
      splay key (t.map f) k := by
  cases t with
  | nil => rfl
  | node lc r rc =>
      exact map_splayLoop f key k (.node lc r rc) [] []

end Map

/- The keys of a tree increase strictly in order. -/
def Ordered
    (key : α → κ)
    (t : BinTree α) : Prop :=
  t.toList.Pairwise (fun a b => key a < key b)

/- The parts of an ordered tree, seen from its root. -/
theorem ordered_node_iff
    (key : α → κ)
    (lc : BinTree α)
    (r : α)
    (rc : BinTree α) :
    Ordered key (.node lc r rc) ↔
      Ordered key lc ∧ Ordered key rc ∧
        (∀ x ∈ lc.toList, key x < key r) ∧
        (∀ x ∈ rc.toList, key r < key x) := by
  simp only [Ordered, toList_node, List.pairwise_append,
    List.pairwise_cons, List.mem_cons, forall_eq_or_imp]
  constructor
  · intro h
    rcases h with ⟨hLeft, ⟨hRoot, hRight⟩, hCross⟩
    exact ⟨hLeft, hRight,
      fun x hx => (hCross x hx).1, hRoot⟩
  · intro h
    rcases h with ⟨hLeft, hRight, hBelow, hAbove⟩
    exact ⟨hLeft, ⟨hAbove, hRight⟩,
      fun x hx => ⟨hBelow x hx,
        fun y hy => (hBelow x hx).trans (hAbove y hy)⟩⟩

/-
  The shape a splay at `k` leaves: everything left of the
  root is below `k` and everything right of it above `k`.
-/
def SplitAt
    (key : α → κ)
    (k : κ)
    (t : BinTree α) : Prop :=
  ∃ lc r rc, t = .node lc r rc ∧
    (∀ x ∈ lc.toList, key x < k) ∧
    (∀ x ∈ rc.toList, k < key x)

theorem splitAt_assemble
    {key : α → κ}
    {k : κ}
    {left : List (BinTree α × α)}
    {lc : BinTree α}
    {r : α}
    {rc : BinTree α}
    {right : List (α × BinTree α)}
    (hLeft : ∀ x ∈ leftList left, key x < k)
    (hRight : ∀ x ∈ rightList right, k < key x)
    (hLc : ∀ x ∈ lc.toList, key x < k)
    (hRc : ∀ x ∈ rc.toList, k < key x) :
    SplitAt key k (assemble left lc r rc right) := by
  refine ⟨_, _, _, rfl, ?_, ?_⟩
  · intro x hx
    rw [toList_linkLeft, List.mem_append] at hx
    exact hx.elim (hLeft x) (hLc x)
  · intro x hx
    rw [toList_linkRight, List.mem_append] at hx
    exact hx.elim (hRc x) (hRight x)

/-
  The descent keeps the left spine below the key and the
  right spine above it, so closing them splits the tree.
-/
theorem splitAt_splayLoop
    (key : α → κ)
    (k : κ)
    (t : BinTree α)
    (left : List (BinTree α × α))
    (right : List (α × BinTree α))
    (hNode : t ≠ .nil)
    (hOrdered : Ordered key t)
    (hLeft : ∀ x ∈ leftList left, key x < k)
    (hRight : ∀ x ∈ rightList right, k < key x) :
    SplitAt key k (splayLoop key k t left right) := by
  fun_induction splayLoop key k t left right with
  | case1 left right => exact absurd rfl hNode
  | case2 r rc left right hLt =>
      rw [ordered_node_iff] at hOrdered
      exact splitAt_assemble hLeft hRight (by simp)
        (fun x hx => hLt.trans (hOrdered.2.2.2 x hx))
  | case3 r rc left right hLt lr lrc hLt' =>
      simp only [ordered_node_iff] at hOrdered
      apply splitAt_assemble hLeft hRight (by simp)
      grind [toList]
  | case4 r rc left right hLt lr lrc hLt' a b c ih =>
      simp only [ordered_node_iff] at hOrdered
      apply ih (by simp) _ hLeft
      · grind [rightList, toList]
      · grind [ordered_node_iff]
  | case5 r rc left right hLt llc lr lrc hLt' ih =>
      rw [ordered_node_iff] at hOrdered
      apply ih (by simp) hOrdered.1 hLeft
      grind [rightList]
  | case6 lc r left right hLt hGt =>
      rw [ordered_node_iff] at hOrdered
      exact splitAt_assemble hLeft hRight
        (fun x hx => (hOrdered.2.2.1 x hx).trans hGt)
        (by simp)
  | case7 lc r left right hLt hGt rlc rr hGt' =>
      simp only [ordered_node_iff] at hOrdered
      apply splitAt_assemble hLeft hRight _ (by simp)
      grind [toList]
  | case8 lc r left right hLt hGt rlc rr hGt' a b c ih =>
      simp only [ordered_node_iff] at hOrdered
      apply ih (by simp) _ _ hRight
      · grind [ordered_node_iff]
      · grind [leftList, toList]
  | case9 lc r left right hLt hGt rlc rr rrc hGt' ih =>
      rw [ordered_node_iff] at hOrdered
      apply ih (by simp) hOrdered.2.1 _ hRight
      grind [leftList]
  | case10 lc r rc left right hLt hGt =>
      rw [ordered_node_iff] at hOrdered
      have hKey : key r = k :=
        le_antisymm (not_lt.mp hLt) (not_lt.mp hGt)
      exact splitAt_assemble hLeft hRight
        (fun x hx => hKey ▸ hOrdered.2.2.1 x hx)
        (fun x hx => hKey ▸ hOrdered.2.2.2 x hx)

/-
  Splaying an ordered tree keeps its in-order list and
  splits it at the key.
-/
theorem splay_spec
    (key : α → κ)
    {t : BinTree α}
    (k : κ)
    (hNode : t ≠ .nil)
    (hOrdered : Ordered key t) :
    ∃ lc r rc, splay key t k = .node lc r rc ∧
      lc.toList ++ r :: rc.toList = t.toList ∧
      (∀ x ∈ lc.toList, key x < k) ∧
      (∀ x ∈ rc.toList, k < key x) := by
  have hSplit : SplitAt key k (splay key t k) := by
    cases t with
    | nil => exact absurd rfl hNode
    | node lc r rc =>
        exact splitAt_splayLoop key k _ [] [] hNode
          hOrdered (by simp [leftList])
          (by simp [rightList])
  rcases hSplit with ⟨lc, r, rc, hEq, hLc, hRc⟩
  refine ⟨lc, r, rc, hEq, ?_, hLc, hRc⟩
  rw [← toList_node, ← hEq, toList_splay]

/- The tree is a node that holds a member of a list. -/
def RootIn
    (t : BinTree α)
    (xs : List α) : Prop :=
  ∃ lc r rc, t = .node lc r rc ∧ r ∈ xs

theorem RootIn.mono
    {t : BinTree α}
    {xs ys : List α}
    (h : RootIn t xs)
    (hSub : ∀ x ∈ xs, x ∈ ys) :
    RootIn t ys := by
  rcases h with ⟨lc, r, rc, hEq, hr⟩
  exact ⟨lc, r, rc, hEq, hSub r hr⟩

theorem rootIn_assemble
    {left : List (BinTree α × α)}
    {lc : BinTree α}
    {r : α}
    {rc : BinTree α}
    {right : List (α × BinTree α)}
    {xs : List α}
    (hr : r ∈ xs) :
    RootIn (assemble left lc r rc right) xs :=
  ⟨_, r, _, rfl, hr⟩

/- A descent ends at a node of the subtree it enters. -/
theorem rootIn_splayLoop
    (key : α → κ)
    (k : κ)
    (t : BinTree α)
    (left : List (BinTree α × α))
    (right : List (α × BinTree α))
    (hNode : t ≠ .nil) :
    RootIn (splayLoop key k t left right) t.toList := by
  fun_induction splayLoop key k t left right with
  | case1 => exact absurd rfl hNode
  | case2 => exact rootIn_assemble (by simp)
  | case3 => exact rootIn_assemble (by simp)
  | case4 r rc left right hLt lr lrc hLt' a b c ih =>
      apply (ih (by simp)).mono
      grind [toList]
  | case5 r rc left right hLt llc lr lrc hLt' ih =>
      apply (ih (by simp)).mono
      grind [toList]
  | case6 => exact rootIn_assemble (by simp)
  | case7 => exact rootIn_assemble (by simp)
  | case8 lc r left right hLt hGt rlc rr hGt' a b c ih =>
      apply (ih (by simp)).mono
      grind [toList]
  | case9 lc r left right hLt hGt rlc rr rrc hGt' ih =>
      apply (ih (by simp)).mono
      grind [toList]
  | case10 => exact rootIn_assemble (by simp)

/- A splay that finds no child to descend to moves nothing. -/
theorem splay_of_stays
    {key : α → κ}
    {lc rc : BinTree α}
    {r : α}
    {k : κ}
    (hLeft : k < key r → lc = .nil)
    (hRight : key r < k → rc = .nil) :
    splay key (.node lc r rc) k = .node lc r rc := by
  change splayLoop key k (.node lc r rc) [] [] = _
  unfold splayLoop
  by_cases hLt : k < key r
  · rw [if_pos hLt, hLeft hLt]
    rfl
  · rw [if_neg hLt]
    by_cases hGt : key r < k
    · rw [if_pos hGt, hRight hGt]
      rfl
    · rw [if_neg hGt]
      rfl

/- A descent to the left takes its root from there. -/
theorem splay_of_left
    {key : α → κ}
    {lc : BinTree α}
    (rc : BinTree α)
    {r : α}
    {k : κ}
    (hLt : k < key r)
    (hNode : lc ≠ .nil) :
    RootIn (splay key (.node lc r rc) k) lc.toList := by
  cases lc with
  | nil => exact absurd rfl hNode
  | node llc lr lrc =>
      unfold splay splayLoop
      simp only [if_pos hLt]
      by_cases hLt' : k < key lr
      · rw [if_pos hLt']
        cases llc with
        | nil => exact rootIn_assemble (by simp)
        | node a b c =>
            apply (rootIn_splayLoop key k (.node a b c) []
              _ (by simp)).mono
            intro x hx
            simp only [toList_node, List.mem_append,
              List.mem_cons] at hx ⊢
            exact Or.inl hx
      · rw [if_neg hLt']
        exact rootIn_splayLoop key k _ [] _ (by simp)

/- A descent to the right takes its root from there. -/
theorem splay_of_right
    {key : α → κ}
    (lc : BinTree α)
    {rc : BinTree α}
    {r : α}
    {k : κ}
    (hGt : key r < k)
    (hNode : rc ≠ .nil) :
    RootIn (splay key (.node lc r rc) k) rc.toList := by
  cases rc with
  | nil => exact absurd rfl hNode
  | node rlc rr rrc =>
      unfold splay splayLoop
      simp only [if_neg (lt_asymm hGt), if_pos hGt]
      by_cases hGt' : key rr < k
      · rw [if_pos hGt']
        cases rrc with
        | nil => exact rootIn_assemble (by simp)
        | node a b c =>
            apply (rootIn_splayLoop key k (.node a b c)
              _ [] (by simp)).mono
            intro x hx
            simp only [toList_node, List.mem_append,
              List.mem_cons] at hx ⊢
            exact Or.inr (Or.inr hx)
      · rw [if_neg hGt']
        exact rootIn_splayLoop key k _ _ [] (by simp)

end Splay

end BinTree
