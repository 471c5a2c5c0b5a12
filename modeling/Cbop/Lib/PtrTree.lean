import Cbop.Lib.BinTree
import Mathlib.Logic.Function.Basic

/-
  Binary trees laid out in memory.

  A heap gives every address a cell with two child pointers.
  A tree of addresses describes the shape that hangs from a
  pointer. The open spines of a top-down descent hang from
  the two child pointers of a header cell, each with one
  pointer at its end that is still to be set.

  Main declarations:
    * `TreeHeap`, `TreeHeap.Points`
    * `TreeHeap.LeftOpen`, `TreeHeap.RightOpen`
    * `TreeHeap.LeftOpen.close`, `TreeHeap.RightOpen.close`
-/

/- A cell: two child pointers and the data of its node. -/
structure TreeCell (α : Type) where
  lc : Option Nat
  rc : Option Nat
  data : α

/- The cells by address; `none` is the null pointer. -/
abbrev TreeHeap (α : Type) := Nat → TreeCell α

namespace TreeHeap

variable {α : Type}

------------------------------------------------------------
-- Writes
------------------------------------------------------------

def setLc
    (h : TreeHeap α)
    (a : Nat)
    (p : Option Nat) :
    TreeHeap α :=
  Function.update h a { h a with lc := p }

def setRc
    (h : TreeHeap α)
    (a : Nat)
    (p : Option Nat) :
    TreeHeap α :=
  Function.update h a { h a with rc := p }

section Writes

variable (h : TreeHeap α) (a : Nat) (p : Option Nat)

@[simp] theorem setLc_lc_self :
    (h.setLc a p a).lc = p := by
  simp [setLc]

@[simp] theorem setRc_rc_self :
    (h.setRc a p a).rc = p := by
  simp [setRc]

@[simp] theorem setLc_rc (x : Nat) :
    (h.setLc a p x).rc = (h x).rc := by
  by_cases hx : x = a
  · subst hx
    simp [setLc]
  · simp [setLc, hx]

@[simp] theorem setRc_lc (x : Nat) :
    (h.setRc a p x).lc = (h x).lc := by
  by_cases hx : x = a
  · subst hx
    simp [setRc]
  · simp [setRc, hx]

@[simp] theorem setLc_data (x : Nat) :
    (h.setLc a p x).data = (h x).data := by
  by_cases hx : x = a
  · subst hx
    simp [setLc]
  · simp [setLc, hx]

@[simp] theorem setRc_data (x : Nat) :
    (h.setRc a p x).data = (h x).data := by
  by_cases hx : x = a
  · subst hx
    simp [setRc]
  · simp [setRc, hx]

variable {h a p}

theorem setLc_of_ne
    {x : Nat}
    (hx : x ≠ a) :
    h.setLc a p x = h x :=
  Function.update_of_ne hx _ _

theorem setRc_of_ne
    {x : Nat}
    (hx : x ≠ a) :
    h.setRc a p x = h x :=
  Function.update_of_ne hx _ _

end Writes

------------------------------------------------------------
-- Trees
------------------------------------------------------------

/- A pointer to the root of a tree of addresses. -/
def Points
    (h : TreeHeap α) :
    Option Nat → BinTree Nat → Prop
| p, .nil => p = none
| p, .node lt a rt =>
    p = some a ∧ h.Points (h a).lc lt ∧
      h.Points (h a).rc rt

/- A tree only depends on its own cells. -/
theorem Points.congr
    {h h' : TreeHeap α}
    {p : Option Nat}
    {t : BinTree Nat}
    (hPoints : h.Points p t)
    (hCells : ∀ x ∈ t.toList, h' x = h x) :
    h'.Points p t := by
  induction t generalizing p with
  | nil => exact hPoints
  | node lt a rt ihl ihr =>
      rcases hPoints with ⟨hp, hLeft, hRight⟩
      have hSelf := hCells a (by simp)
      refine ⟨hp, ?_, ?_⟩
      · rw [hSelf]
        apply ihl hLeft
        intro x hx
        exact hCells x (by simp [hx])
      · rw [hSelf]
        apply ihr hRight
        intro x hx
        exact hCells x (by simp [hx])

/- A pointer is null exactly if its tree is empty. -/
theorem Points.eq_none_iff
    {h : TreeHeap α}
    {p : Option Nat}
    {t : BinTree Nat}
    (hPoints : h.Points p t) :
    p = none ↔ t = .nil := by
  cases t with
  | nil =>
      have hp : p = none := hPoints
      simp [hp]
  | node lt a rt => simp [hPoints.1]

------------------------------------------------------------
-- Open Spines
------------------------------------------------------------

/-
  A left spine that hangs from the right child pointer of
  the cell `n` and whose open end is the right child pointer
  of `l`.
-/
def LeftOpen
    (h : TreeHeap α)
    (n : Nat) :
    List (BinTree Nat × Nat) → Nat → Prop
| [], l => l = n
| (lt, a) :: spine, l =>
    l = a ∧ h.Points (h a).lc lt ∧
      ∃ up, h.LeftOpen n spine up ∧ (h up).rc = some a

/- A right spine, the mirror image of `LeftOpen`. -/
def RightOpen
    (h : TreeHeap α)
    (n : Nat) :
    List (Nat × BinTree Nat) → Nat → Prop
| [], r => r = n
| (a, rt) :: spine, r =>
    r = a ∧ h.Points (h a).rc rt ∧
      ∃ up, h.RightOpen n spine up ∧ (h up).lc = some a

/- The open end is the header or a cell of the spine. -/
theorem LeftOpen.mem
    {h : TreeHeap α}
    {n l : Nat}
    {left : List (BinTree Nat × Nat)}
    (hOpen : h.LeftOpen n left l) :
    l = n ∨ l ∈ BinTree.leftList left := by
  cases left with
  | nil => exact .inl hOpen
  | cons entry spine =>
      right
      rw [hOpen.1]
      simp [BinTree.leftList]

theorem RightOpen.mem
    {h : TreeHeap α}
    {n r : Nat}
    {right : List (Nat × BinTree Nat)}
    (hOpen : h.RightOpen n right r) :
    r = n ∨ r ∈ BinTree.rightList right := by
  cases right with
  | nil => exact .inl hOpen
  | cons entry spine =>
      right
      rw [hOpen.1]
      simp [BinTree.rightList]

/-
  A spine depends on its own cells and on the pointer it
  hangs from.
-/
theorem LeftOpen.congr
    {h h' : TreeHeap α}
    {n l : Nat}
    {left : List (BinTree Nat × Nat)}
    (hOpen : h.LeftOpen n left l)
    (hHead : (h' n).rc = (h n).rc)
    (hCells : ∀ x ∈ BinTree.leftList left, h' x = h x) :
    h'.LeftOpen n left l := by
  induction left generalizing l with
  | nil => exact hOpen
  | cons entry spine ih =>
      rcases entry with ⟨lt, a⟩
      rcases hOpen with ⟨hl, hLt, up, hUp, hLink⟩
      have hSpine : ∀ x ∈ BinTree.leftList spine,
          h' x = h x := by
        intro x hx
        exact hCells x (by simp [BinTree.leftList, hx])
      refine ⟨hl, ?_, up, ih hUp hSpine, ?_⟩
      · rw [hCells a (by simp [BinTree.leftList])]
        apply hLt.congr
        intro x hx
        exact hCells x (by simp [BinTree.leftList, hx])
      · rcases hUp.mem with rfl | hMem
        · rw [hHead]
          exact hLink
        · rw [hSpine up hMem]
          exact hLink

theorem RightOpen.congr
    {h h' : TreeHeap α}
    {n r : Nat}
    {right : List (Nat × BinTree Nat)}
    (hOpen : h.RightOpen n right r)
    (hHead : (h' n).lc = (h n).lc)
    (hCells : ∀ x ∈ BinTree.rightList right, h' x = h x) :
    h'.RightOpen n right r := by
  induction right generalizing r with
  | nil => exact hOpen
  | cons entry spine ih =>
      rcases entry with ⟨a, rt⟩
      rcases hOpen with ⟨hr, hRt, up, hUp, hLink⟩
      have hSpine : ∀ x ∈ BinTree.rightList spine,
          h' x = h x := by
        intro x hx
        exact hCells x (by simp [BinTree.rightList, hx])
      refine ⟨hr, ?_, up, ih hUp hSpine, ?_⟩
      · rw [hCells a (by simp [BinTree.rightList])]
        apply hRt.congr
        intro x hx
        exact hCells x (by simp [BinTree.rightList, hx])
      · rcases hUp.mem with rfl | hMem
        · rw [hHead]
          exact hLink
        · rw [hSpine up hMem]
          exact hLink

/- The pointer at the open end may be set. -/
theorem LeftOpen.setRc
    {h : TreeHeap α}
    {n l : Nat}
    {left : List (BinTree Nat × Nat)}
    (hOpen : h.LeftOpen n left l)
    (hNodup : (n :: BinTree.leftList left).Nodup)
    (p : Option Nat) :
    (h.setRc l p).LeftOpen n left l := by
  cases left with
  | nil => exact hOpen
  | cons entry spine =>
      rcases entry with ⟨lt, a⟩
      rcases hOpen with ⟨rfl, hLt, up, hUp, hLink⟩
      simp only [BinTree.leftList, List.nodup_cons,
        List.nodup_append, List.mem_append,
        List.mem_singleton] at hNodup
      have hTree : ∀ x ∈ lt.toList, x ≠ l := by grind
      have hSpine : ∀ x ∈ BinTree.leftList spine,
          x ≠ l := by grind
      have hHead : n ≠ l := by grind
      refine ⟨rfl, ?_, up, ?_, ?_⟩
      · rw [setRc_lc]
        exact hLt.congr
          (fun x hx => setRc_of_ne (hTree x hx))
      · exact hUp.congr (by rw [setRc_of_ne hHead])
          (fun x hx => setRc_of_ne (hSpine x hx))
      · have hNe : up ≠ l := by
          rcases hUp.mem with rfl | hMem
          · exact hHead
          · exact hSpine up hMem
        rw [setRc_of_ne hNe]
        exact hLink

theorem RightOpen.setLc
    {h : TreeHeap α}
    {n r : Nat}
    {right : List (Nat × BinTree Nat)}
    (hOpen : h.RightOpen n right r)
    (hNodup : (n :: BinTree.rightList right).Nodup)
    (p : Option Nat) :
    (h.setLc r p).RightOpen n right r := by
  cases right with
  | nil => exact hOpen
  | cons entry spine =>
      rcases entry with ⟨a, rt⟩
      rcases hOpen with ⟨rfl, hRt, up, hUp, hLink⟩
      simp only [BinTree.rightList, List.nodup_cons,
        List.nodup_append, List.mem_append,
        List.mem_cons] at hNodup
      have hTree : ∀ x ∈ rt.toList, x ≠ r := by grind
      have hSpine : ∀ x ∈ BinTree.rightList spine,
          x ≠ r := by grind
      have hHead : n ≠ r := by grind
      refine ⟨rfl, ?_, up, ?_, ?_⟩
      · rw [setLc_rc]
        exact hRt.congr
          (fun x hx => setLc_of_ne (hTree x hx))
      · exact hUp.congr (by rw [setLc_of_ne hHead])
          (fun x hx => setLc_of_ne (hSpine x hx))
      · have hNe : up ≠ r := by
          rcases hUp.mem with rfl | hMem
          · exact hHead
          · exact hSpine up hMem
        rw [setLc_of_ne hNe]
        exact hLink

/- A tree at the open end closes the spine over it. -/
theorem LeftOpen.close
    {h : TreeHeap α}
    {n l : Nat}
    {left : List (BinTree Nat × Nat)}
    {t : BinTree Nat}
    (hOpen : h.LeftOpen n left l)
    (hTree : h.Points (h l).rc t) :
    h.Points (h n).rc (BinTree.linkLeft left t) := by
  induction left generalizing l t with
  | nil =>
      have hl : l = n := hOpen
      exact hl ▸ hTree
  | cons entry spine ih =>
      rcases entry with ⟨lt, a⟩
      rcases hOpen with ⟨rfl, hLt, up, hUp, hLink⟩
      apply ih hUp
      rw [hLink]
      exact ⟨rfl, hLt, hTree⟩

theorem RightOpen.close
    {h : TreeHeap α}
    {n r : Nat}
    {right : List (Nat × BinTree Nat)}
    {t : BinTree Nat}
    (hOpen : h.RightOpen n right r)
    (hTree : h.Points (h r).lc t) :
    h.Points (h n).lc (BinTree.linkRight right t) := by
  induction right generalizing r t with
  | nil =>
      have hr : r = n := hOpen
      exact hr ▸ hTree
  | cons entry spine ih =>
      rcases entry with ⟨a, rt⟩
      rcases hOpen with ⟨rfl, hRt, up, hUp, hLink⟩
      apply ih hUp
      rw [hLink]
      exact ⟨rfl, hTree, hRt⟩

end TreeHeap
