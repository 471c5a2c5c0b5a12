import Cbop.Lib.Outcome
import Cbop.RangeTree.Overlaps

/-
  `map_add_range_from_task` of `postwait.c`: insertion that
  remembers which task a range came from and replaces a
  stored range only by an equal one.

  The function looks for an overlap at the splayed root and
  at the root of its left subtree. Into a map of disjoint
  ranges, a range that equals or misses every stored one is
  inserted without an abort or a failed assertion.

  Main declarations:
    * `mapAddRangeFromTask`
    * `EqualOrDisjoint`, `ExtentAdded`, `Stores`
    * `mapAddRangeFromTask_stores`
    * `mapAddRangeFromTask_spec`
-/

namespace Cbop

------------------------------------------------------------
-- The Function
------------------------------------------------------------

/- The bytes of a data record. -/
abbrev Bytes := List UInt8

/-
  What a call does: it returns a range of the map, or it
  reaches `BOP_abort_spec`, or an assertion fails. The map
  of a refused call is what `map->root` reaches where
  `BOP_abort_spec` returns to its caller.
-/
inductive Added where
| done : RangeMap Bytes → MemRange Bytes → Added
| refused : RangeMap Bytes → Added
| fault : Added
deriving DecidableEq, Repr

/- The call as seen by a task that `BOP_abort_spec` ends. -/
def Added.outcome : Added → Outcome (RangeMap Bytes)
| .done map _ => .ret map
| .refused _ => .abort
| .fault => .fault

/- `data_clone`. -/
def dataClone (src : Bytes) (size : Nat) : Bytes :=
  src.take size

/- The subtree a pointer to the node based at `base` sees. -/
def subtreeAt : RangeNode Bytes → Nat → RangeNode Bytes
| .nil, _ => .nil
| .node lc r rc, base =>
    if base = r.base then
      .node lc r rc
    else if base < r.base then
      subtreeAt lc base
    else
      subtreeAt rc base

/- The data at the root of a subtree. -/
def rootRange : RangeNode Bytes → Option (MemRange Bytes)
| .nil => none
| .node _ r _ => some r

/- The new range overlaps the root of a subtree. -/
def overlapsRoot
    (n : MemRange Bytes)
    (t : RangeNode Bytes) : Bool :=
  (rootRange t).any (fun r => (overlap n r).isSome)

/-
  `map_add_range_from_task`. As in `map_add_range`, the
  assertion `size > 0` is the caller's duty.
-/
def mapAddRangeFromTask
    (map : RangeMap Bytes)
    (base size : Nat)
    (obj : Option Bytes)
    (pprId : Nat) :
    Added :=
  let n : MemRange Bytes :=
    { newNode base size
        (obj.map (fun src => dataClone src size)) with
      task := pprId }
  match splay map.root base with
  | .nil =>
      .done
        { map with root := .node .nil n .nil, size := 1 } n
  | .node lc top rc =>
      -- could be overlapping with the left child
      if !((overlap n top).isSome || overlapsRoot n lc) then
        if n.base < top.base then
          -- the assertion on the new node's left child
          if (rootRange lc).all
              (fun l => l.bound ≤ n.base) then
            .done
              { map with
                root := .node lc n (.node .nil top rc)
                size := map.size + 1 } n
          else
            .fault
        else
          -- the assertion on the new node's right child
          if (rootRange rc).all
              (fun r => n.bound ≤ r.base) then
            .done
              { map with
                root := .node (.node lc top .nil) n rc
                size := map.size + 1 } n
          else
            .fault
      else if n.base = top.base ∧ n.size = top.size then
        if top.task > n.task then
          -- silent drop
          .done { map with root := .node lc top rc } top
        else
          let top' :=
            { top with record := n.record, task := n.task }
          .done { map with root := .node lc top' rc } top'
      else
        .refused
          { map with
            root :=
              subtreeAt (.node lc top rc)
                (rootBase map.root) }

------------------------------------------------------------
-- Insertion of Equal or Disjoint Ranges
------------------------------------------------------------

/- Two ranges have the same extent. -/
def SameExtent (r s : MemRange Bytes) : Prop :=
  r.base = s.base ∧ r.size = s.size

instance (r s : MemRange Bytes) :
    Decidable (SameExtent r s) :=
  inferInstanceAs (Decidable (_ ∧ _))

/- Two ranges have the same extent or share no address. -/
def EqualOrDisjoint (r s : MemRange Bytes) : Prop :=
  SameExtent r s ∨ ¬ Meets r s

instance (r s : MemRange Bytes) :
    Decidable (EqualOrDisjoint r s) :=
  inferInstanceAs (Decidable (_ ∨ _))

/- The two assertions and tests look at a root only. -/
theorem rootRange_mem
    {t : RangeNode Bytes}
    {r : MemRange Bytes}
    (h : rootRange t = some r) :
    r ∈ t.toList := by
  cases t with
  | nil => simp [rootRange] at h
  | node lc s rc =>
      simp only [rootRange, Option.some.injEq] at h
      subst h
      simp

/- `map'` is `map` with the extent of `n` added. -/
structure ExtentAdded
    (map map' : RangeMap Bytes)
    (n : MemRange Bytes) : Prop where
  keeps : map'.Keeps 0
  covered_eq : map'.covered = map.covered ∪ n.addrs
  extents : ∀ r ∈ map'.ranges,
    SameExtent r n ∨ ∃ s ∈ map.ranges, SameExtent r s

/-
  `map'` is `map` with `n` stored: `approved` is the range
  of that extent it holds, which is `n` unless the stored
  one came from a later task.
-/
structure Stores
    (map map' : RangeMap Bytes)
    (n approved : MemRange Bytes) : Prop where
  keeps : map'.Keeps 0
  extent : SameExtent approved n
  mem_iff : ∀ r, r ∈ map'.ranges ↔
    r = approved ∨ (r ∈ map.ranges ∧ ¬ SameExtent r n)
  winner :
    (approved = n ∧ ∀ old ∈ map.ranges,
      SameExtent old n → old.task ≤ n.task) ∨
    (approved ∈ map.ranges ∧ n.task < approved.task)

theorem SameExtent.addrs_eq
    {r s : MemRange Bytes}
    (h : SameExtent r s) :
    r.addrs = s.addrs := by
  unfold MemRange.addrs
  rw [h.1, h.2]

theorem Stores.extentAdded
    {map map' : RangeMap Bytes}
    {n approved : MemRange Bytes}
    (h : Stores map map' n approved) :
    ExtentAdded map map' n := by
  refine ⟨h.keeps, ?_, ?_⟩
  · ext a
    constructor
    · intro hCase
      rcases hCase with ⟨r, hr, ha⟩
      rcases (h.mem_iff r).mp hr with rfl | ⟨hOld, _⟩
      · rw [h.extent.addrs_eq] at ha
        exact Or.inr ha
      · exact Or.inl ⟨r, hOld, ha⟩
    · have hApproved : n.addrs ⊆ map'.covered := by
        intro b hb
        rw [← h.extent.addrs_eq] at hb
        exact ⟨approved, (h.mem_iff _).mpr (Or.inl rfl), hb⟩
      intro hCase
      rcases hCase with ⟨r, hr, ha⟩ | ha
      · by_cases hSame : SameExtent r n
        · rw [hSame.addrs_eq] at ha
          exact hApproved ha
        · exact
            ⟨r, (h.mem_iff r).mpr (Or.inr ⟨hr, hSame⟩), ha⟩
      · exact hApproved ha
  · intro r hr
    rcases (h.mem_iff r).mp hr with rfl | ⟨hOld, _⟩
    · exact Or.inl h.extent
    · exact Or.inr ⟨r, hOld, rfl, rfl⟩

/- A new range between those before it and those after. -/
theorem stores_insert
    {map map' : RangeMap Bytes}
    {before after : List (MemRange Bytes)}
    {n : MemRange Bytes}
    (hMap : map.Keeps 0)
    (hOld : map.ranges = before ++ after)
    (hNew : map'.ranges = before ++ n :: after)
    (hSize : map'.size = map.size + 1)
    (hValid : n.Valid)
    (hBefore : ∀ r ∈ before, r.base + r.size ≤ n.base)
    (hAfter : ∀ r ∈ after, n.base + n.size ≤ r.base) :
    Stores map map' n n := by
  have hPos := hValid.pos
  have hOther : ∀ r ∈ map.ranges, ¬ SameExtent r n := by
    intro r hr h
    rcases h with ⟨hBase, hExtent⟩
    rw [hOld] at hr
    rcases List.mem_append.mp hr with hr | hr
    · have hEnd := hBefore r hr
      omega
    · have hStart := hAfter r hr
      omega
  have hApart := hMap.apart
  rw [hOld, Apart.append_iff] at hApart
  have hCount := hMap.size_eq
  rw [hOld, List.length_append] at hCount
  refine ⟨⟨?_, ?_⟩, ⟨rfl, rfl⟩, ?_, Or.inl ⟨rfl, ?_⟩⟩
  · rw [hNew, Apart.split_iff]
    exact ⟨hApart.1, hValid, hApart.2.1, hBefore, hAfter⟩
  · rw [hNew, List.length_append, List.length_cons]
    omega
  · intro r
    have hMem :
        r ∈ map'.ranges ↔ r = n ∨ r ∈ map.ranges := by
      rw [hNew, hOld]
      simp only [List.mem_append, List.mem_cons]
      exact or_left_comm
    rw [hMem]
    constructor
    · intro h
      rcases h with hEq | hr
      · exact Or.inl hEq
      · exact Or.inr ⟨hr, hOther r hr⟩
    · intro h
      rcases h with hEq | ⟨hr, _⟩
      · exact Or.inl hEq
      · exact Or.inr hr
  · intro old hMem hSame
    exact absurd hSame (hOther old hMem)

/- The range of equal extent, kept or given new data. -/
theorem stores_replace
    {map map' : RangeMap Bytes}
    {before after : List (MemRange Bytes)}
    {old new n : MemRange Bytes}
    (hMap : map.Keeps 0)
    (hOld : map.ranges = before ++ old :: after)
    (hNew : map'.ranges = before ++ new :: after)
    (hSize : map'.size = map.size)
    (hEqual : SameExtent n old)
    (hWinner :
      (new = n ∧ old.task ≤ n.task) ∨
        (new = old ∧ n.task < old.task)) :
    Stores map map' n new := by
  have hApart := hMap.apart
  rw [hOld, Apart.split_iff] at hApart
  rcases hApart with
    ⟨hLeft, hValid, hRight, hBefore, hAfter⟩
  have hPos := hValid.pos
  have hCount := hMap.size_eq
  rw [hOld, List.length_append,
    List.length_cons] at hCount
  have hSame : SameExtent new old := by
    rcases hWinner with ⟨rfl, _⟩ | ⟨rfl, _⟩
    · exact hEqual
    · exact ⟨rfl, rfl⟩
  have hOther :
      ∀ r, r ∈ before ∨ r ∈ after → ¬ SameExtent r n := by
    intro r hr h
    rcases h with ⟨hBase, hExtent⟩
    rcases hEqual with ⟨hBase', hExtent'⟩
    rcases hr with hr | hr
    · have hEnd := hBefore r hr
      omega
    · have hStart := hAfter r hr
      omega
  refine ⟨⟨?_, ?_⟩, ?_, ?_, ?_⟩
  · rw [hNew, Apart.split_iff, hSame.1, hSame.2]
    refine ⟨hLeft, ⟨?_, ?_⟩, hRight, hBefore, hAfter⟩
    · rw [hSame.2]
      exact hValid.pos
    · rw [hSame.1, hSame.2]
      exact hValid.fits
  · rw [hNew, List.length_append, List.length_cons,
      hSize]
    exact hCount
  · exact ⟨hSame.1.trans hEqual.1.symm,
      hSame.2.trans hEqual.2.symm⟩
  · intro r
    rw [hNew, hOld]
    simp only [List.mem_append, List.mem_cons]
    constructor
    · intro h
      rcases h with hr | rfl | hr
      · exact Or.inr ⟨Or.inl hr, hOther r (Or.inl hr)⟩
      · exact Or.inl rfl
      · exact Or.inr
          ⟨Or.inr (Or.inr hr), hOther r (Or.inr hr)⟩
    · intro h
      rcases h with rfl | ⟨hr | rfl | hr, hNot⟩
      · exact Or.inr (Or.inl rfl)
      · exact Or.inl hr
      · exact absurd ⟨hEqual.1.symm, hEqual.2.symm⟩ hNot
      · exact Or.inr (Or.inr hr)
  · rcases hWinner with ⟨rfl, hLe⟩ | ⟨rfl, hLt⟩
    · refine Or.inl ⟨rfl, ?_⟩
      intro r hr hExtent
      rw [hOld, List.mem_append, List.mem_cons] at hr
      rcases hr with hr | rfl | hr
      · exact absurd hExtent (hOther r (Or.inl hr))
      · exact hLe
      · exact absurd hExtent (hOther r (Or.inr hr))
    · exact Or.inr ⟨by rw [hOld]; simp, hLt⟩

/-
  A disjoint range with another base lies wholly on the side
  of its base.
-/
theorem below_of_not_meets
    {r n : MemRange Bytes}
    (hMiss : ¬ Meets n r)
    (hPos : 0 < n.size)
    (hLt : r.base < n.base) :
    r.base + r.size ≤ n.base := by
  by_contra hPast
  exact hMiss ⟨by omega, by omega⟩

/- The assertion or test at the root of a subtree. -/
theorem all_rootRange
    {t : RangeNode Bytes}
    {check : MemRange Bytes → Bool}
    (h : ∀ r ∈ t.toList, check r = true) :
    (rootRange t).all check = true := by
  cases hRoot : rootRange t with
  | none => rfl
  | some r => exact h r (rootRange_mem hRoot)

theorem overlapsRoot_eq_false
    {n : MemRange Bytes}
    {t : RangeNode Bytes}
    (hValid : n.Valid)
    (hStored : ∀ r ∈ t.toList, r.Valid)
    (hMiss : ∀ r ∈ t.toList, ¬ Meets n r) :
    overlapsRoot n t = false := by
  unfold overlapsRoot
  cases hRoot : rootRange t with
  | none => rfl
  | some r =>
      have hMem := rootRange_mem hRoot
      have hNone := overlap_of_not_meets hValid
        (hStored r hMem) (hMiss r hMem)
      simp [hNone]

/- The node of the new range. -/
def taskNode
    (base size : Nat)
    (obj : Option Bytes)
    (pprId : Nat) :
    MemRange Bytes :=
  { newNode base size
      (obj.map (fun src => dataClone src size)) with
    task := pprId }

section Branches

variable {map : RangeMap Bytes}
variable {base size pprId : Nat}
variable {obj : Option Bytes}
variable {lc rc : RangeNode Bytes}
variable {top : MemRange Bytes}

/- The root has the extent of the new range. -/
theorem mapAddRangeFromTask_eq_replace
    (hSplay : splay map.root base = .node lc top rc)
    (hSome :
      (overlap (taskNode base size obj pprId) top).isSome =
        true)
    (hSame : SameExtent (taskNode base size obj pprId) top) :
    ∃ new,
      mapAddRangeFromTask map base size obj pprId =
        .done { map with root := .node lc new rc } new ∧
      ((new = taskNode base size obj pprId ∧
          top.task ≤ pprId) ∨
        (new = top ∧ pprId < top.task)) := by
  have hExact :
      (taskNode base size obj pprId).base = top.base ∧
        (taskNode base size obj pprId).size = top.size :=
    hSame
  unfold taskNode at hSome hExact
  unfold mapAddRangeFromTask
  simp only [hSplay, hSome, Bool.true_or, Bool.not_true,
    Bool.false_eq_true, if_false, if_pos hExact]
  by_cases hLater : top.task > pprId
  · refine ⟨top, if_pos hLater, ?_⟩
    exact Or.inr ⟨rfl, hLater⟩
  · refine ⟨_, if_neg hLater, ?_⟩
    left
    refine ⟨?_, by omega⟩
    rcases hSame with ⟨hBase, hExtent⟩
    unfold taskNode at *
    simp only [newNode] at hBase hExtent ⊢
    rw [hBase, hExtent]

/- The new range goes in below the root. -/
theorem mapAddRangeFromTask_eq_below
    (hSplay : splay map.root base = .node lc top rc)
    (hTop :
      (overlap (taskNode base size obj pprId) top).isSome =
        false)
    (hLeft :
      overlapsRoot (taskNode base size obj pprId) lc = false)
    (hLt : base < top.base)
    (hAssert :
      (rootRange lc).all
        (fun l => decide (l.bound ≤ base)) = true) :
    mapAddRangeFromTask map base size obj pprId =
      .done
        { map with
          root := .node lc (taskNode base size obj pprId)
            (.node .nil top rc)
          size := map.size + 1 }
        (taskNode base size obj pprId) := by
  unfold taskNode at hTop hLeft
  unfold mapAddRangeFromTask
  simp only [hSplay, hTop, hLeft, Bool.or_self,
    Bool.not_false, if_true]
  exact (if_pos hLt).trans (if_pos hAssert)

/- The new range goes in above the root. -/
theorem mapAddRangeFromTask_eq_above
    (hSplay : splay map.root base = .node lc top rc)
    (hTop :
      (overlap (taskNode base size obj pprId) top).isSome =
        false)
    (hLeft :
      overlapsRoot (taskNode base size obj pprId) lc = false)
    (hLt : ¬ base < top.base)
    (hAssert :
      (rootRange rc).all (fun r => decide
        ((taskNode base size obj pprId).bound ≤ r.base)) =
        true) :
    mapAddRangeFromTask map base size obj pprId =
      .done
        { map with
          root := .node (.node lc top .nil)
            (taskNode base size obj pprId) rc
          size := map.size + 1 }
        (taskNode base size obj pprId) := by
  unfold taskNode at hTop hLeft hAssert
  unfold mapAddRangeFromTask
  simp only [hSplay, hTop, hLeft, Bool.or_self,
    Bool.not_false, if_true]
  exact (if_neg hLt).trans (if_pos hAssert)

end Branches

/-
  A new range that is none of its neighbours' extents and
  meets none of them goes in beside the splayed root.
-/
theorem mapAddRangeFromTask_beside
    {map : RangeMap Bytes}
    {base size pprId : Nat}
    {obj : Option Bytes}
    {lc rc : RangeNode Bytes}
    {top n : MemRange Bytes}
    (hN : n = taskNode base size obj pprId)
    (hMap : map.Keeps 0)
    (hValid : n.Valid)
    (hSplay : splay map.root base = .node lc top rc)
    (hOld : map.ranges = lc.toList ++ top :: rc.toList)
    (hTop : ¬ Meets n top)
    (hNe : top.base ≠ base)
    (hLc : ∀ r ∈ lc.toList,
      ¬ Meets n r ∧ r.base + r.size ≤ n.base)
    (hRc : ∀ r ∈ rc.toList, n.base + n.size ≤ r.base) :
    ∃ map' range,
      mapAddRangeFromTask map base size obj pprId =
        .done map' range ∧ Stores map map' n range := by
  have hBase : n.base = base := by
    rw [hN]
    rfl
  have hStored := hMap.apart
  rw [hOld, Apart.split_iff] at hStored
  rcases hStored with ⟨hLeft, hTopValid, -, -, -⟩
  have hTopFree : (overlap n top).isSome = false := by
    rw [overlap_of_not_meets hValid hTopValid hTop]
    rfl
  have hLcFree : overlapsRoot n lc = false :=
    overlapsRoot_eq_false hValid hLeft.valid
      (fun r hr => (hLc r hr).1)
  rw [hN] at hTopFree hLcFree
  by_cases hLt : base < top.base
  · have hEnd := below_of_not_meets
      (fun h => hTop h.symm) hTopValid.pos
      (by rw [hBase]; exact hLt)
    have hAssert :
        (rootRange lc).all
          (fun l => decide (l.bound ≤ base)) = true := by
      apply all_rootRange
      intro l hMem
      rw [decide_eq_true_iff,
        (hLeft.valid l hMem).bound_eq, ← hBase]
      exact (hLc l hMem).2
    rw [mapAddRangeFromTask_eq_below hSplay hTopFree hLcFree
      hLt hAssert, ← hN]
    refine ⟨_, _, rfl, ?_⟩
    apply stores_insert hMap hOld rfl rfl hValid
      (fun r hr => (hLc r hr).2)
    intro r hr
    rcases List.mem_cons.mp hr with rfl | hr
    · exact hEnd
    · exact hRc r hr
  · have hEnd := below_of_not_meets hTop hValid.pos
      (by omega)
    have hAssert :
        (rootRange rc).all
          (fun r => decide (n.bound ≤ r.base)) = true := by
      apply all_rootRange
      intro r hMem
      rw [decide_eq_true_iff, hValid.bound_eq]
      exact hRc r hMem
    have hSplit :
        map.ranges =
          (lc.toList ++ [top]) ++ rc.toList := by
      rw [hOld, List.append_cons]
    rw [hN] at hAssert
    rw [mapAddRangeFromTask_eq_above hSplay hTopFree hLcFree
      hLt hAssert, ← hN]
    refine ⟨_, _, rfl, ?_⟩
    apply stores_insert hMap hSplit rfl rfl hValid
    · intro r hr
      rcases List.mem_append.mp hr with hr | hr
      · exact (hLc r hr).2
      · rw [List.mem_singleton] at hr
        subst hr
        exact hEnd
    · exact hRc

/-
  A range that equals or misses every stored range goes in.
-/
theorem mapAddRangeFromTask_stores
    {map : RangeMap Bytes}
    {base size : Nat}
    (obj : Option Bytes)
    (pprId : Nat)
    (hMap : map.Keeps 0)
    (hSize : 0 < size)
    (hFits : base + size < 2 ^ 64)
    (hApart : ∀ r ∈ map.ranges,
      EqualOrDisjoint r (newNode base size none)) :
    ∃ map' range,
      mapAddRangeFromTask map base size obj pprId =
        .done map' range ∧
      Stores map map' (taskNode base size obj pprId) range := by
  obtain ⟨n, hN⟩ :
      ∃ n, n = taskNode base size obj pprId := ⟨_, rfl⟩
  have hBase : n.base = base := by rw [hN]; rfl
  have hNSize : n.size = size := by rw [hN]; rfl
  have hTask : n.task = pprId := by rw [hN]; rfl
  have hNValid : n.Valid := by
    constructor <;> omega
  rw [← hN]
  have hExtents : ∀ r ∈ map.ranges,
      Meets n r → r.base = base ∧ r.size = size := by
    intro r hr hMeets
    rcases hApart r hr with hEq | hDisjoint
    · exact hEq
    · exfalso
      apply hDisjoint
      change r.base < base + size ∧ base < r.base + r.size
      rw [← hBase, ← hNSize]
      exact hMeets.symm
  by_cases hNil : map.root = .nil
  · have hRanges : map.ranges = [] :=
      ranges_eq_nil_iff.mpr hNil
    have hZero : map.size = 0 := by
      rw [hMap.size_eq, hRanges]
      rfl
    unfold mapAddRangeFromTask
    rw [hNil, splay_nil]
    refine ⟨_, n, by rw [hN]; rfl, ?_⟩
    apply stores_insert hMap hRanges (by rw [hN]; rfl)
      (by rw [hZero]) hNValid
    · simp
    · simp
  · rcases splay_decompose base hNil hMap.apart with
      ⟨lc, top, rc, hSplay, hList, hLc, hRc⟩
    have hOld :
        map.ranges = lc.toList ++ top :: rc.toList :=
      hList.symm
    have hStored := hMap.apart.valid
    rw [hOld] at hStored hExtents
    have hTopValid := hStored top (by simp)
    by_cases hSame : top.base = base
    · -- the root is the equal range: it is replaced
      have hMeets : Meets n top := by
        have hTopPos := hTopValid.pos
        exact ⟨by omega, by omega⟩
      have hEqual : SameExtent n top := by
        have hTop := hExtents top (by simp) hMeets
        exact ⟨by omega, by omega⟩
      have hSome : (overlap n top).isSome = true := by
        rw [overlap_of_meets hNValid hTopValid hMeets]
        rfl
      rw [hN] at hSome
      rcases mapAddRangeFromTask_eq_replace hSplay hSome
          (hN ▸ hEqual) with
        ⟨new, hCall, hNew⟩
      rw [← hN, ← hTask] at hNew
      exact ⟨_, _, hCall, stores_replace hMap hOld rfl rfl
        hEqual hNew⟩
    · -- the root is a neighbour: a new node goes in
      apply mapAddRangeFromTask_beside hN hMap hNValid hSplay
        hOld
      · intro hMeets
        exact hSame (hExtents top (by simp) hMeets).1
      · exact hSame
      · intro r hr
        have hLt := hLc r hr
        have hMiss : ¬ Meets n r := by
          intro hMeets
          have hEq := hExtents r (by simp [hr]) hMeets
          omega
        exact ⟨hMiss,
          below_of_not_meets hMiss hNValid.pos (by omega)⟩
      · intro r hr
        have hLt := hRc r hr
        have hPos := (hStored r (by simp [hr])).pos
        have hMiss : ¬ Meets r n := by
          intro hMeets
          have hEq := hExtents r (by simp [hr]) hMeets.symm
          omega
        exact below_of_not_meets hMiss hPos (by omega)

/-
  The result is a map of disjoint ranges whose extents are
  the old ones and the new one.
-/
theorem mapAddRangeFromTask_spec
    {map : RangeMap Bytes}
    {base size : Nat}
    (obj : Option Bytes)
    (pprId : Nat)
    (hMap : map.Keeps 0)
    (hSize : 0 < size)
    (hFits : base + size < 2 ^ 64)
    (hApart : ∀ r ∈ map.ranges,
      EqualOrDisjoint r (newNode base size none)) :
    ∃ map' range,
      mapAddRangeFromTask map base size obj pprId =
        .done map' range ∧
      map'.Keeps 0 ∧
      map'.covered =
        map.covered ∪ Set.Ico base (base + size) ∧
      (∀ r ∈ map'.ranges,
        SameExtent r (newNode base size none) ∨
          ∃ s ∈ map.ranges, SameExtent r s) := by
  rcases mapAddRangeFromTask_stores obj pprId hMap hSize
      hFits hApart with
    ⟨map', range, hCall, hStores⟩
  have hExtent := hStores.extentAdded
  exact ⟨map', range, hCall, hExtent.keeps,
    hExtent.covered_eq, hExtent.extents⟩

end Cbop
