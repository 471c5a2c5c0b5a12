import Cbop.RangeTree.Contains
import Mathlib.Data.List.Induction

/-
  The key-value view of a range map: a key is a range of one
  byte, whose record is the object.

  A merged range has one record. A key that touches stored
  ranges therefore keeps its object, and leaves the objects
  of the other keys, only where these ranges carry the
  object that is added.

  Main declarations:
    * `mapAddKeyVal`, `mapSearchKey`
    * `valueAt`
    * `RootRange`
    * `valueAt_mapAddRange_iff`
    * `keyVal_finiteMap_iff`
-/

namespace Cbop

variable {ρ : Type}

------------------------------------------------------------
-- Keys and Objects
------------------------------------------------------------

/- `map_add_key_val`; `none` is a failed assertion. -/
def mapAddKeyVal
    (map : RangeMap ρ)
    (key : Nat)
    (obj : Option ρ) :
    Option (RangeMap ρ) :=
  if map.isHash then
    some (mapAddRange map key 1 obj)
  else
    none

/-
  `map_search_key`: the re-rooted map and the object, where
  `none` stands for `NULL`.
-/
def mapSearchKey
    (map : RangeMap ρ)
    (addr : Nat) :
    Option (RangeMap ρ × Option ρ) :=
  if map.isHash then do
    let (map, k) ← mapContains map addr
    match k with
    | some k => pure (map, k.record)
    | none => pure (map, none)
  else
    none

/- The record at an address, of ranges that are apart. -/
def valueAt
    (ranges : List (MemRange ρ))
    (a : Nat) :
    Option ρ :=
  (ranges.find? (fun r => a ∈ r.addrs)).bind
    MemRange.record

------------------------------------------------------------
-- Runs of Covered Addresses
------------------------------------------------------------

/- Two ranges of a list are one, or lie apart. -/
theorem Apart.eq_or_apart
    {gap : Nat}
    {ranges : List (MemRange ρ)}
    (hApart : Apart gap ranges)
    {r s : MemRange ρ}
    (hr : r ∈ ranges)
    (hs : s ∈ ranges) :
    r = s ∨ r.base + r.size + gap ≤ s.base ∨
      s.base + s.size + gap ≤ r.base := by
  rcases List.append_of_mem hr with ⟨before, after, rfl⟩
  rw [Apart.split_iff] at hApart
  rcases hApart with ⟨_, _, _, hBefore, hAfter⟩
  simp only [List.mem_append, List.mem_cons] at hs
  rcases hs with hs | hs | hs
  · exact .inr (.inr (hBefore s hs))
  · exact .inl hs.symm
  · exact .inr (.inl (hAfter s hs))

theorem Apart.eq_of_mem_addrs
    {gap : Nat}
    {ranges : List (MemRange ρ)}
    (hApart : Apart gap ranges)
    {r s : MemRange ρ}
    {a : Nat}
    (hr : r ∈ ranges)
    (hs : s ∈ ranges)
    (hAr : a ∈ r.addrs)
    (hAs : a ∈ s.addrs) :
    r = s := by
  rw [MemRange.mem_addrs] at hAr hAs
  rcases hApart.eq_or_apart hr hs with hEq | hLt | hLt
  · exact hEq
  · omega
  · omega

/- Covered addresses that follow on a range are in it. -/
theorem Apart.le_end_of_covered
    {ranges : List (MemRange ρ)}
    (hApart : Apart 1 ranges)
    {r : MemRange ρ}
    {a c : Nat}
    (hr : r ∈ ranges)
    (hIn : a ∈ r.addrs)
    (hRun : ∀ b, a ≤ b → b < c → b ∈ covered ranges) :
    c ≤ r.base + r.size := by
  rw [MemRange.mem_addrs] at hIn
  by_contra hPast
  rcases hRun (r.base + r.size) (by omega) (by omega) with
    ⟨s, hs, hEnd⟩
  rw [MemRange.mem_addrs] at hEnd
  rcases hApart.eq_or_apart hr hs with rfl | hLt | hLt
  · omega
  · omega
  · omega

/- And those that lead up to it. -/
theorem Apart.base_le_of_covered
    {ranges : List (MemRange ρ)}
    (hApart : Apart 1 ranges)
    {r : MemRange ρ}
    {a c : Nat}
    (hr : r ∈ ranges)
    (hIn : a ∈ r.addrs)
    (hRun : ∀ b, c ≤ b → b ≤ a → b ∈ covered ranges) :
    r.base ≤ c := by
  rw [MemRange.mem_addrs] at hIn
  by_contra hPast
  rcases hRun (r.base - 1) (by omega) (by omega) with
    ⟨s, hs, hBefore⟩
  rw [MemRange.mem_addrs] at hBefore
  have hSize := (hApart.valid r hr).pos
  rcases hApart.eq_or_apart hr hs with rfl | hLt | hLt
  · omega
  · omega
  · omega

theorem valueAt_of_mem
    {gap : Nat}
    {ranges : List (MemRange ρ)}
    (hApart : Apart gap ranges)
    {r : MemRange ρ}
    {a : Nat}
    (hr : r ∈ ranges)
    (hIn : a ∈ r.addrs) :
    valueAt ranges a = r.record := by
  unfold valueAt
  cases hFind : ranges.find? (fun r => a ∈ r.addrs) with
  | none =>
      rw [List.find?_eq_none] at hFind
      exact absurd (decide_eq_true hIn) (hFind r hr)
  | some s =>
      have hs := List.mem_of_find?_eq_some hFind
      have hAt := List.find?_some hFind
      rw [decide_eq_true_iff] at hAt
      rw [hApart.eq_of_mem_addrs hr hs hIn hAt]
      rfl

theorem valueAt_of_not_covered
    {ranges : List (MemRange ρ)}
    {a : Nat}
    (hFree : a ∉ covered ranges) :
    valueAt ranges a = none := by
  have hFind :
      ranges.find? (fun r => a ∈ r.addrs) = none := by
    rw [List.find?_eq_none]
    intro r hr hIn
    rw [decide_eq_true_iff] at hIn
    exact hFree ⟨r, hr, hIn⟩
  unfold valueAt
  rw [hFind]
  rfl

/- A search of a map returns the record at the address. -/
theorem mapSearchKey_eq
    {map : RangeMap ρ}
    (hHash : map.isHash = true)
    (hMap : map.WellFormed)
    (addr : Nat) :
    ∃ map', mapSearchKey map addr =
      some (map', valueAt map.ranges addr) := by
  rcases mapContains_spec hMap.apart addr with
    ⟨map', found, hLookup⟩
  refine ⟨map', ?_⟩
  unfold mapSearchKey
  rw [if_pos hHash, hLookup.call]
  cases found with
  | none =>
      have hFree : addr ∉ covered map.ranges := by
        intro hCovered
        rcases hCovered with ⟨r, hr, hIn⟩
        have hFound := (hLookup.found_iff r).mpr ⟨hr, hIn⟩
        cases hFound
      rw [valueAt_of_not_covered hFree]
      rfl
  | some r =>
      rcases (hLookup.found_iff r).mp rfl with ⟨hr, hIn⟩
      rw [valueAt_of_mem hMap.apart hr hIn]
      rfl

------------------------------------------------------------
-- The Range of a New Key
------------------------------------------------------------

/- The range holds the key or ends or starts next to it. -/
def MemRange.Touches (r : MemRange ρ) (key : Nat) : Prop :=
  r.base ≤ key + 1 ∧ key ≤ r.base + r.size

instance
    (r : MemRange ρ)
    (key : Nat) :
    Decidable (r.Touches key) :=
  inferInstanceAs (Decidable (_ ∧ _))

/-
  What adding a key makes of a list of ranges: `root` holds
  the key and the ranges that the key touches, the others
  stay. A touched range may lose its end.
-/
structure RootRange
    (old new : List (MemRange ρ))
    (key : Nat)
    (obj : Option ρ)
    (root : MemRange ρ) :
    Prop where
  mem : root ∈ new
  others : ∀ r ∈ new, r = root ∨ r ∈ old
  holds : key ∈ root.addrs
  record : root.record = obj ∨
    ∃ p ∈ old, p.Touches key ∧ root.record = p.record
  same : ∀ p ∈ old, p.base = key → root.record = p.record
  kept : ∀ p ∈ old, p ∈ new ∨ p.Touches key
  inside : ∀ a ∈ root.addrs, a ≠ key →
    ∃ p ∈ old, p.Touches key ∧ a ∈ p.addrs
  absorbs : ∀ p ∈ old, p.Touches key → p.base ∈ root.addrs

section Union

variable {old new : List (MemRange ρ)}
variable {key : Nat}
variable {root : MemRange ρ}

/- Apart from the key the root covers what was covered. -/
theorem covered_of_mem_root
    (hUnion :
      covered new = covered old ∪ Set.Ico key (key + 1))
    (hMem : root ∈ new)
    {a : Nat}
    (hIn : a ∈ root.addrs)
    (hNe : a ≠ key) :
    a ∈ covered old := by
  have hCovered : a ∈ covered new := ⟨root, hMem, hIn⟩
  rw [hUnion] at hCovered
  rcases hCovered with hCovered | hKey
  · exact hCovered
  · rw [Set.mem_Ico] at hKey
    omega

/- It covers the ranges that the key touches, and no more. -/
theorem touched_of_mem_root
    (hOld : Apart 1 old)
    (hUnion :
      covered new = covered old ∪ Set.Ico key (key + 1))
    (hMem : root ∈ new)
    (hHolds : key ∈ root.addrs)
    {a : Nat}
    (hIn : a ∈ root.addrs)
    (hNe : a ≠ key) :
    ∃ p ∈ old, p.Touches key ∧ a ∈ p.addrs := by
  have hBetween : ∀ {b : Nat}, b ∈ root.addrs → b ≠ key →
      b ∈ covered old :=
    fun hb hbNe => covered_of_mem_root hUnion hMem hb hbNe
  rcases hBetween hIn hNe with ⟨p, hp, hAt⟩
  have hAt' := hAt
  rw [MemRange.mem_addrs] at hIn hHolds hAt'
  refine ⟨p, hp, ?_, hAt⟩
  -- the addresses from the one to the other are covered
  rcases Nat.lt_or_gt_of_ne hNe with hLt | hGt
  · have hReach : key ≤ p.base + p.size :=
      hOld.le_end_of_covered hp hAt (fun b _ _ =>
        hBetween (MemRange.mem_addrs.mpr (by omega))
          (by omega))
    exact ⟨by omega, hReach⟩
  · have hReach : p.base ≤ key + 1 :=
      hOld.base_le_of_covered hp hAt (fun b _ _ =>
        hBetween (MemRange.mem_addrs.mpr (by omega))
          (by omega))
    exact ⟨hReach, by omega⟩

theorem base_mem_root_of_touched
    (hOld : Apart 1 old)
    (hNew : Apart 1 new)
    (hUnion :
      covered new = covered old ∪ Set.Ico key (key + 1))
    (hMem : root ∈ new)
    (hHolds : key ∈ root.addrs)
    {p : MemRange ρ}
    (hp : p ∈ old)
    (hTouch : p.Touches key) :
    p.base ∈ root.addrs := by
  rcases hTouch with ⟨hLow, hHigh⟩
  have hPos := (hOld.valid p hp).pos
  have hCovered : ∀ {b : Nat}, b ∈ p.addrs ∨ b = key →
      b ∈ covered new := by
    intro b hb
    rcases hb with hb | rfl
    · rw [hUnion]
      exact .inl ⟨p, hp, hb⟩
    · exact ⟨root, hMem, hHolds⟩
  by_cases hBelow : p.base ≤ key
  · -- the range that holds the base reaches the key
    rcases hCovered (.inl
      (MemRange.mem_addrs.mpr ⟨Nat.le_refl _, by omega⟩)) with
      ⟨r, hr, hIn⟩
    have hReach : key + 1 ≤ r.base + r.size := by
      apply hNew.le_end_of_covered hr hIn
      intro b hb hbKey
      apply hCovered
      by_cases hKey : b = key
      · exact .inr hKey
      · exact .inl (MemRange.mem_addrs.mpr (by omega))
    have hLe := (MemRange.mem_addrs.mp hIn).1
    have hEq : r = root := hNew.eq_of_mem_addrs hr hMem
      (MemRange.mem_addrs.mpr (by omega)) hHolds
    exact hEq ▸ hIn
  · have hReach : key + 2 ≤ root.base + root.size := by
      apply hNew.le_end_of_covered hMem hHolds
      intro b hb hbKey
      apply hCovered
      by_cases hKey : b = key
      · exact .inr hKey
      · exact .inl (MemRange.mem_addrs.mpr (by omega))
    rw [MemRange.mem_addrs] at hHolds ⊢
    omega

/- Where nothing is lost the last three parts follow. -/
theorem rootRange_of_union
    {obj : Option ρ}
    (hOld : Apart 1 old)
    (hNew : Apart 1 new)
    (hUnion :
      covered new = covered old ∪ Set.Ico key (key + 1))
    (hMem : root ∈ new)
    (hOthers : ∀ r ∈ new, r = root ∨ r ∈ old)
    (hHolds : key ∈ root.addrs)
    (hRecord : root.record = obj ∨
      ∃ p ∈ old, p.Touches key ∧ root.record = p.record)
    (hSame : ∀ p ∈ old, p.base = key →
      root.record = p.record) :
    RootRange old new key obj root := by
  have hInside := fun a hIn hNe =>
    touched_of_mem_root (a := a) hOld hUnion hMem hHolds hIn hNe
  refine ⟨hMem, hOthers, hHolds, hRecord, hSame, ?_, hInside,
    fun p hp hTouch => base_mem_root_of_touched hOld hNew
      hUnion hMem hHolds hp hTouch⟩
  intro p hp
  have hBase : p.base ∈ p.addrs := by
    have hPos := (hOld.valid p hp).pos
    rw [MemRange.mem_addrs]
    omega
  have hCovered : p.base ∈ covered new := by
    rw [hUnion]
    exact .inl ⟨p, hp, hBase⟩
  rcases hCovered with ⟨r, hr, hIn⟩
  rcases hOthers r hr with rfl | hrOld
  · right
    by_cases hKey : p.base = key
    · exact ⟨by omega, by omega⟩
    · rcases hInside p.base hIn hKey with
        ⟨q, hq, hTouch, hAt⟩
      rw [hOld.eq_of_mem_addrs hp hq hBase hAt]
      exact hTouch
  · left
    rw [hOld.eq_of_mem_addrs hp hrOld hBase hIn]
    exact hr

end Union

namespace RootRange

variable {old new : List (MemRange ρ)}
variable {key : Nat}
variable {obj : Option ρ}
variable {root : MemRange ρ}

/- No address is new but the key. -/
theorem covered_subset
    (hRoot : RootRange old new key obj root) :
    covered new ⊆ covered old ∪ Set.Ico key (key + 1) := by
  intro a hCovered
  rcases hCovered with ⟨r, hr, hIn⟩
  rcases hRoot.others r hr with rfl | hrOld
  · by_cases hKey : a = key
    · right
      rw [Set.mem_Ico]
      omega
    · rcases hRoot.inside a hIn hKey with ⟨p, hp, _, hAt⟩
      exact .inl ⟨p, hp, hAt⟩
  · exact .inl ⟨r, hrOld, hIn⟩

/- Where all touched ranges carry the object, so does it. -/
theorem record_eq
    (hRoot : RootRange old new key obj root)
    (hTouched : ∀ p ∈ old, p.Touches key →
      p.record = obj) :
    root.record = obj := by
  rcases hRoot.record with hObj | ⟨p, hp, hTouch, hRec⟩
  · exact hObj
  · rw [hRec, hTouched p hp hTouch]

/- An object that shows at all keys of the new range. -/
theorem touched_of_value
    (hRoot : RootRange old new key obj root)
    (hOld : Apart 1 old)
    (hNew : Apart 1 new)
    (hValue : ∀ a, valueAt new a =
      if a = key then obj else valueAt old a)
    {p : MemRange ρ}
    (hp : p ∈ old)
    (hTouch : p.Touches key) :
    p.record = obj := by
  have hObj : root.record = obj := by
    rw [← valueAt_of_mem hNew hRoot.mem hRoot.holds, hValue,
      if_pos rfl]
  by_cases hBase : p.base = key
  · rw [← hRoot.same p hp hBase, hObj]
  · have hIn : p.base ∈ p.addrs := by
      have hPos := (hOld.valid p hp).pos
      rw [MemRange.mem_addrs]
      omega
    have hAt := hValue p.base
    rw [if_neg hBase, valueAt_of_mem hOld hp hIn,
      valueAt_of_mem hNew hRoot.mem
        (hRoot.absorbs p hp hTouch), hObj] at hAt
    exact hAt.symm

/- An object other than `NULL` is not lost with its key. -/
theorem union_of_value
    (hRoot : RootRange old new key obj root)
    (hOld : Apart 1 old)
    (hNew : Apart 1 new)
    (hValue : ∀ a, valueAt new a =
      if a = key then obj else valueAt old a)
    (hSome : obj ≠ none) :
    covered new = covered old ∪ Set.Ico key (key + 1) := by
  apply Set.Subset.antisymm hRoot.covered_subset
  intro a hCovered
  by_cases hKey : a = key
  · exact ⟨root, hRoot.mem, hKey ▸ hRoot.holds⟩
  · rcases hCovered with ⟨p, hp, hIn⟩ | hIn
    · rcases hRoot.kept p hp with hpNew | hTouch
      · exact ⟨p, hpNew, hIn⟩
      · by_contra hLost
        have hAt := hValue a
        rw [if_neg hKey, valueAt_of_not_covered hLost,
          valueAt_of_mem hOld hp hIn,
          hRoot.touched_of_value hOld hNew hValue hp
            hTouch] at hAt
        exact hSome hAt.symm
    · rw [Set.mem_Ico] at hIn
      omega

theorem value_of_touched
    (hRoot : RootRange old new key obj root)
    (hOld : Apart 1 old)
    (hNew : Apart 1 new)
    (hTouched : ∀ p ∈ old, p.Touches key → p.record = obj)
    (hLoss : obj = none ∨ covered new =
      covered old ∪ Set.Ico key (key + 1))
    (a : Nat) :
    valueAt new a =
      if a = key then obj else valueAt old a := by
  by_cases hIn : a ∈ root.addrs
  · rw [valueAt_of_mem hNew hRoot.mem hIn,
      hRoot.record_eq hTouched]
    split
    · rfl
    · next hNe =>
        rcases hRoot.inside a hIn hNe with
          ⟨p, hp, hTouch, hAt⟩
        rw [valueAt_of_mem hOld hp hAt,
          hTouched p hp hTouch]
  · have hNe : a ≠ key := by
      intro hEq
      exact hIn (hEq ▸ hRoot.holds)
    rw [if_neg hNe]
    by_cases hCovered : a ∈ covered new
    · rcases hCovered with ⟨r, hr, hAt⟩
      rcases hRoot.others r hr with rfl | hrOld
      · exact absurd hAt hIn
      · rw [valueAt_of_mem hNew hr hAt,
          valueAt_of_mem hOld hrOld hAt]
    · rw [valueAt_of_not_covered hCovered]
      by_cases hBefore : a ∈ covered old
      · rcases hBefore with ⟨p, hp, hAt⟩
        rw [valueAt_of_mem hOld hp hAt]
        rcases hLoss with hNone | hUnion
        · rcases hRoot.kept p hp with hpNew | hTouch
          · exact absurd ⟨p, hpNew, hAt⟩ hCovered
          · rw [hTouched p hp hTouch, hNone]
        · rw [hUnion] at hCovered
          exact absurd (.inl ⟨p, hp, hAt⟩) hCovered
      · rw [valueAt_of_not_covered hBefore]

/-
  Adding a key changes the object of that key, and of no
  other, exactly if the touched ranges carry the object, and
  nothing is lost where the object is not `NULL`.
-/
theorem value_iff
    (hRoot : RootRange old new key obj root)
    (hOld : Apart 1 old)
    (hNew : Apart 1 new) :
    (∀ a, valueAt new a =
        if a = key then obj else valueAt old a) ↔
      (∀ p ∈ old, p.Touches key → p.record = obj) ∧
        (obj = none ∨ covered new =
          covered old ∪ Set.Ico key (key + 1)) := by
  constructor
  · intro hValue
    refine ⟨fun p hp hTouch =>
      hRoot.touched_of_value hOld hNew hValue hp hTouch, ?_⟩
    by_cases hNull : obj = none
    · exact .inl hNull
    · exact .inr
        (hRoot.union_of_value hOld hNew hValue hNull)
  · intro h a
    exact hRoot.value_of_touched hOld hNew h.1 h.2 a

end RootRange

------------------------------------------------------------
-- The Branches of `map_add_range`
------------------------------------------------------------

/- The range that absorbs keeps its record and its end. -/
theorem absorbLeft_grows
    (t : RangeNode ρ)
    (range : MemRange ρ)
    (size : Nat)
    (hApart : Apart 1 t.toList)
    (hBelow : ∀ r ∈ t.toList, r.base < range.base)
    (hFits : range.base + range.size < 2 ^ 64) :
    ∃ t' range' size',
      absorbLeft t range size = (t', range', size') ∧
      (∀ r ∈ t'.toList, r ∈ t.toList) ∧
      range'.record = range.record ∧
      range'.base ≤ range.base ∧
      range'.base + range'.size =
        range.base + range.size := by
  rcases absorbLeft_spec t range size hApart hBelow hFits with
    ⟨hEq, _⟩ | ⟨front, last, t', hList, _, hEq, hFront⟩
  · exact ⟨t, range, size, hEq, fun _ hr => hr, rfl,
      Nat.le_refl _, rfl⟩
  · have hLow : last.base ≤ range.base :=
      Nat.le_of_lt (hBelow last (by rw [hList]; simp))
    refine ⟨t', range.downTo last.base, size - 1, hEq, ?_,
      rfl, hLow, MemRange.downTo_end hLow⟩
    intro r hr
    rw [hFront] at hr
    rw [hList]
    exact List.mem_append_left _ hr

/- It keeps its record and its base. -/
theorem absorbRight_grows
    (t : RangeNode ρ)
    (range : MemRange ρ)
    (size : Nat)
    (hApart : Apart 1 t.toList)
    (hAbove : ∀ r ∈ t.toList, range.base ≤ r.base)
    (hFits : range.base + range.size < 2 ^ 64) :
    ∃ t' range' size',
      absorbRight t range size = (t', range', size') ∧
      (∀ r ∈ t'.toList, r ∈ t.toList) ∧
      range'.record = range.record ∧
      range'.base = range.base ∧
      range.base + range.size ≤
        range'.base + range'.size := by
  rcases absorbRight_spec t range size hApart hAbove hFits
    with ⟨t', taken, stop, hEq, hList, hEnd, _⟩
  refine ⟨t', _, _, hEq, ?_, rfl, rfl, ?_⟩
  · intro r hr
    rw [hList]
    exact List.mem_append_right _ hr
  · change _ ≤ range.base + (stop - range.base)
    omega

/- A key that touches no range is a range of its own. -/
theorem rootRange_of_free
    {left right : List (MemRange ρ)}
    {key : Nat}
    (obj : Option ρ)
    (hFree : ∀ r ∈ left, r.base + r.size < key)
    (hPast : ∀ r ∈ right, key + 1 < r.base) :
    RootRange (left ++ right)
      (left ++ newNode key 1 obj :: right) key obj
      (newNode key 1 obj) := by
  have hNone : ∀ p ∈ left ++ right, ¬p.Touches key := by
    intro p hp hTouch
    rcases hTouch with ⟨hLow, hHigh⟩
    rcases List.mem_append.mp hp with hp | hp
    · have hEnd := hFree p hp
      omega
    · have hStart := hPast p hp
      omega
  refine ⟨by simp, ?_, ?_, .inl rfl, ?_, ?_, ?_, ?_⟩
  · intro r hr
    rw [List.mem_append, List.mem_cons] at hr
    rw [List.mem_append]
    tauto
  · rw [addrs_newNode, Set.mem_Ico]
    omega
  · intro p hp hBase
    exact absurd ⟨by omega, by omega⟩ (hNone p hp)
  · intro p hp
    left
    rw [List.mem_append] at hp
    rw [List.mem_append, List.mem_cons]
    tauto
  · intro a hIn hNe
    rw [addrs_newNode, Set.mem_Ico] at hIn
    omega
  · intro p hp hTouch
    exact absurd hTouch (hNone p hp)

/-
  A range that starts below the key and reaches it is cut
  off, or grows, to end with the key.
-/
theorem rootRange_of_reached
    {front rest : List (MemRange ρ)}
    {last : MemRange ρ}
    {key : Nat}
    (obj : Option ρ)
    (hApart : Apart 1 (front ++ last :: rest))
    (hLow : last.base < key)
    (hReach : key ≤ last.base + last.size)
    (hPast : ∀ r ∈ rest, key + 1 < r.base) :
    RootRange (front ++ last :: rest)
      (front ++ (newNode key 1 obj).downTo last.base ::
        rest) key obj
      ((newNode key 1 obj).downTo last.base) := by
  have hEnd : last.base +
      ((newNode key 1 obj).downTo last.base).size =
        key + 1 :=
    MemRange.downTo_end (r := newNode key 1 obj)
      (Nat.le_of_lt hLow)
  have hAddrs : ∀ a,
      a ∈ ((newNode key 1 obj).downTo last.base).addrs ↔
        last.base ≤ a ∧ a < key + 1 := by
    intro a
    rw [MemRange.mem_addrs, ← hEnd]
    rfl
  have hParts := Apart.split_iff.mp hApart
  have hOne : ∀ p ∈ front ++ last :: rest,
      p.Touches key → p = last := by
    intro p hp hTouch
    rcases hTouch with ⟨hpLow, hpHigh⟩
    rcases List.mem_append.mp hp with hp | hp
    · have hBefore := hParts.2.2.2.1 p hp
      omega
    · rcases List.mem_cons.mp hp with hEq | hp
      · exact hEq
      · have hStart := hPast p hp
        omega
  have hLast : last.Touches key := ⟨by omega, hReach⟩
  refine ⟨by simp, ?_, ?_, .inl rfl, ?_, ?_, ?_, ?_⟩
  · intro r hr
    rw [List.mem_append, List.mem_cons] at hr
    rw [List.mem_append, List.mem_cons]
    tauto
  · rw [hAddrs]
    omega
  · intro p hp hBase
    have hEq := hOne p hp ⟨by omega, by omega⟩
    rw [hEq] at hBase
    omega
  · intro p hp
    rw [List.mem_append, List.mem_cons] at hp ⊢
    rcases hp with hp | rfl | hp
    · exact .inl (.inl hp)
    · exact .inr hLast
    · exact .inl (.inr (.inr hp))
  · intro a hIn hNe
    rw [hAddrs] at hIn
    refine ⟨last, by simp, hLast, ?_⟩
    rw [MemRange.mem_addrs]
    omega
  · intro p hp hTouch
    rw [hOne p hp hTouch, hAddrs]
    omega

section Branches

variable {map : RangeMap ρ}
variable {lc rc : RangeNode ρ}
variable {top : MemRange ρ}
variable {key : Nat}

/- The key touches the root: the root's record stays. -/
theorem rootRange_of_touches
    (obj : Option ρ)
    (hMap : map.WellFormed)
    (hFits : key + 1 < 2 ^ 64)
    (hSplay : splay map.root key = .node lc top rc)
    (hList : lc.toList ++ top :: rc.toList = map.ranges)
    (hLc : ∀ r ∈ lc.toList, r.base < key)
    (hRc : ∀ r ∈ rc.toList, key < r.base)
    (hTouch : top.Touches key) :
    ∃ root, RootRange map.ranges
      (mapAddRange map key 1 obj).ranges key obj root := by
  rcases hTouch with ⟨hAbove, hBelow⟩
  have hBranch := mapAddRange_of_touches obj hMap
    Nat.one_pos hFits hSplay hList hLc hRc hBelow hAbove
  have hParts := hMap.apart
  rw [← hList, Apart.split_iff] at hParts
  rcases hParts with
    ⟨hLeft, hTop, hRight, hBefore, hAfter⟩
  have hValid := hull_valid hFits hTop
  have hHullBase :
      (hull top key 1).base = min key top.base := rfl
  have hHullEnd :
      (hull top key 1).base + (hull top key 1).size =
        max (key + 1) (top.base + top.size) := hull_end
  rcases absorbLeft_grows lc (hull top key 1) map.size hLeft
      (by
        intro r hr
        have hLow := hLc r hr
        have hEnd := hBefore r hr
        omega)
      hValid.fits with
    ⟨lc', left, size1, hEqLeft, hSubLeft, hRecLeft,
      hBaseLeft, hEndLeft⟩
  rcases absorbRight_grows rc left size1 hRight
      (by
        intro r hr
        have hHigh := hRc r hr
        omega)
      (by
        rw [hEndLeft]
        exact hValid.fits) with
    ⟨rc', root, size2, hEqRight, hSubRight, hRecRight,
      hBaseRight, hEndRight⟩
  have hRanges : (mapAddRange map key 1 obj).ranges =
      lc'.toList ++ root :: rc'.toList := by
    rw [mapAddRange_eq_merge obj
      (newNode_valid obj Nat.one_pos hFits) hTop hSplay hBelow
      hAbove]
    simp only [hEqLeft, hEqRight]
    rfl
  have hRecord : root.record = top.record :=
    hRecRight.trans hRecLeft
  refine ⟨root, rootRange_of_union hMap.apart
    hBranch.1.apart hBranch.2 ?_ ?_ ?_ (.inr ?_) ?_⟩
  · rw [hRanges]
    simp
  · intro r hr
    rw [hRanges, List.mem_append, List.mem_cons] at hr
    rw [← hList, List.mem_append, List.mem_cons]
    rcases hr with hr | rfl | hr
    · exact .inr (.inl (hSubLeft r hr))
    · exact .inl rfl
    · exact .inr (.inr (.inr (hSubRight r hr)))
  · rw [MemRange.mem_addrs]
    omega
  · exact ⟨top, by rw [← hList]; simp, ⟨hAbove, hBelow⟩,
      hRecord⟩
  · intro p hp hBase
    rw [← hList, List.mem_append, List.mem_cons] at hp
    rcases hp with hp | rfl | hp
    · have hLow := hLc p hp
      omega
    · exact hRecord
    · have hHigh := hRc p hp
      omega

/- The root ends before the key. -/
theorem rootRange_of_after
    (obj : Option ρ)
    (hMap : map.WellFormed)
    (hFits : key + 1 < 2 ^ 64)
    (hSplay : splay map.root key = .node lc top rc)
    (hList : lc.toList ++ top :: rc.toList = map.ranges)
    (hLc : ∀ r ∈ lc.toList, r.base < key)
    (hRc : ∀ r ∈ rc.toList, key < r.base)
    (hGap : top.base + top.size < key) :
    ∃ root, RootRange map.ranges
      (mapAddRange map key 1 obj).ranges key obj root := by
  have hBranch := mapAddRange_of_after obj hMap Nat.one_pos
    hFits hSplay hList hRc hGap
  have hParts := hMap.apart
  rw [← hList, Apart.split_iff] at hParts
  rcases hParts with
    ⟨hLeft, hTop, hRight, hBefore, hAfter⟩
  have hN := newNode_valid obj Nat.one_pos hFits
  rcases absorbRight_grows rc (newNode key 1 obj)
      (map.size + 1) hRight
      (fun r hr => Nat.le_of_lt (hRc r hr)) hFits with
    ⟨rc', root, size', hEq, hSub, hRec, hBase, hEnd⟩
  have hRanges : (mapAddRange map key 1 obj).ranges =
      (lc.toList ++ [top]) ++ root :: rc'.toList := by
    rw [mapAddRange_eq_above obj hN hTop hSplay hGap]
    simp only [hEq]
    simp [RangeMap.ranges]
  refine ⟨root, rootRange_of_union hMap.apart
    hBranch.1.apart hBranch.2 ?_ ?_ ?_ (.inl hRec) ?_⟩
  · rw [hRanges]
    simp
  · intro r hr
    rw [hRanges] at hr
    rw [← hList]
    simp only [List.mem_append, List.mem_cons,
      List.not_mem_nil, or_false] at hr ⊢
    rcases hr with (hr | rfl) | rfl | hr
    · exact .inr (.inl hr)
    · exact .inr (.inr (.inl rfl))
    · exact .inl rfl
    · exact .inr (.inr (.inr (hSub r hr)))
  · change root.base = key at hBase
    change key + 1 ≤ root.base + root.size at hEnd
    rw [MemRange.mem_addrs]
    omega
  · intro p hp hKey
    rw [← hList, List.mem_append, List.mem_cons] at hp
    rcases hp with hp | rfl | hp
    · have hLow := hLc p hp
      omega
    · omega
    · have hHigh := hRc p hp
      omega

/-
  The root starts past the key: a range that the key reaches
  on the left is absorbed, up to the key.
-/
theorem rootRange_of_before
    (obj : Option ρ)
    (hMap : map.WellFormed)
    (hSplay : splay map.root key = .node lc top rc)
    (hList : lc.toList ++ top :: rc.toList = map.ranges)
    (hLc : ∀ r ∈ lc.toList, r.base < key)
    (hGap : key + 1 < top.base) :
    ∃ root, RootRange map.ranges
      (mapAddRange map key 1 obj).ranges key obj root := by
  have hParts := hMap.apart
  rw [← hList, Apart.split_iff] at hParts
  rcases hParts with
    ⟨hLeft, hTop, hRight, hBefore, hAfter⟩
  have hTopPos := hTop.pos
  have hTopFits := hTop.fits
  have hFits : key + 1 < 2 ^ 64 := by omega
  have hPast :
      ∀ r ∈ top :: rc.toList, key + 1 < r.base := by
    intro r hr
    rcases List.mem_cons.mp hr with rfl | hr
    · exact hGap
    · have hLe := hAfter r hr
      omega
  have hN := newNode_valid obj Nat.one_pos hFits
  rcases absorbLeft_spec lc (newNode key 1 obj)
      (map.size + 1) hLeft hLc hFits with
    ⟨hEq, hFree⟩ | ⟨front, last, lc', hFront, hReach, hEq,
      hFrontList⟩
  · have hRanges : (mapAddRange map key 1 obj).ranges =
        lc.toList ++ newNode key 1 obj ::
          top :: rc.toList := by
      rw [mapAddRange_eq_below obj hN hTop hSplay hGap]
      simp only [hEq]
      rfl
    rw [hRanges, ← hList]
    exact ⟨_, rootRange_of_free obj hFree hPast⟩
  · have hRanges : (mapAddRange map key 1 obj).ranges =
        front ++ (newNode key 1 obj).downTo last.base ::
          top :: rc.toList := by
      rw [mapAddRange_eq_below obj hN hTop hSplay hGap]
      simp only [hEq, ← hFrontList]
      rfl
    have hOld : map.ranges =
        front ++ last :: top :: rc.toList := by
      rw [← hList, hFront]
      simp
    rw [hRanges, hOld]
    exact ⟨_, rootRange_of_reached obj (hOld ▸ hMap.apart)
      (hLc last (by rw [hFront]; simp)) hReach hPast⟩

end Branches

theorem rootRange_mapAddRange
    {map : RangeMap ρ}
    {key : Nat}
    (obj : Option ρ)
    (hMap : map.WellFormed)
    (hFits : key + 1 < 2 ^ 64) :
    ∃ root, RootRange map.ranges
      (mapAddRange map key 1 obj).ranges key obj root := by
  by_cases hNil : map.root = .nil
  · have hNone : map.ranges = [] :=
      ranges_eq_nil_iff.mpr hNil
    have hBranch := mapAddRange_spec obj hMap Nat.one_pos
      hFits
    have hNew : (mapAddRange map key 1 obj).ranges =
        [newNode key 1 obj] := by
      rw [mapAddRange_of_empty key 1 obj hNil]
      rfl
    have hUnion : covered [newNode key 1 obj] =
        covered ([] : List (MemRange ρ)) ∪
          Set.Ico key (key + 1) := by
      simp
    rw [hNone, hNew]
    refine ⟨newNode key 1 obj, rootRange_of_union Apart.nil
      (hNew ▸ hBranch.1.apart) hUnion (by simp) ?_ ?_
      (.inl rfl) (by simp)⟩
    · intro r hr
      exact .inl (List.mem_singleton.mp hr)
    · rw [addrs_newNode, Set.mem_Ico]
      omega
  · rcases splay_decompose key hNil hMap.apart with
      ⟨lc, top, rc, hSplay, hList, hLc, hRc⟩
    by_cases hLow : top.base ≤ key + 1
    · by_cases hHigh : key ≤ top.base + top.size
      · exact rootRange_of_touches obj hMap hFits hSplay hList
          hLc hRc ⟨hLow, hHigh⟩
      · exact rootRange_of_after obj hMap hFits hSplay hList
          hLc hRc (by omega)
    · exact rootRange_of_before obj hMap hSplay hList hLc
        (by omega)

------------------------------------------------------------
-- Sequences of Added Keys
------------------------------------------------------------

/-
  The ranges that the key touches carry the object, and the
  splay at the key hides none that contains it, unless the
  object is `NULL`.
-/
def AddsCleanly
    (map : RangeMap ρ)
    (key : Nat)
    (obj : Option ρ) :
    Prop :=
  (∀ p ∈ map.ranges, p.Touches key → p.record = obj) ∧
    (obj = none ∨ RootHolds map key 1)

instance
    [DecidableEq ρ]
    (map : RangeMap ρ)
    (key : Nat)
    (obj : Option ρ) :
    Decidable (AddsCleanly map key obj) :=
  inferInstanceAs (Decidable (_ ∧ _))

theorem valueAt_mapAddRange_iff
    {map : RangeMap ρ}
    {key : Nat}
    (obj : Option ρ)
    (hMap : map.WellFormed)
    (hFits : key + 1 < 2 ^ 64) :
    (∀ a, valueAt (mapAddRange map key 1 obj).ranges a =
        if a = key then obj else valueAt map.ranges a) ↔
      AddsCleanly map key obj := by
  have hAdd := mapAddRange_spec obj hMap Nat.one_pos hFits
  rcases rootRange_mapAddRange obj hMap hFits with
    ⟨root, hRoot⟩
  rw [hRoot.value_iff hMap.apart hAdd.1.apart]
  unfold AddsCleanly
  rw [← hAdd.2]
  rfl

/- An empty map of keys. -/
def emptyHash : RangeMap ρ :=
  { initEmptyMap with isHash := true }

/- The calls of `map_add_key_val` with these arguments. -/
def addKeyVals
    (map : RangeMap ρ)
    (adds : List (Nat × Option ρ)) :
    Option (RangeMap ρ) :=
  adds.foldlM
    (fun map add => mapAddKeyVal map add.1 add.2) map

/- The object of the last call that added the key. -/
def lastAdded
    (adds : List (Nat × Option ρ))
    (k : Nat) :
    Option ρ :=
  (adds.reverse.find? (fun add => add.1 = k)).bind Prod.snd

/- A search for a key returns the object last added to it. -/
def FindsLast
    (map : RangeMap ρ)
    (adds : List (Nat × Option ρ)) :
    Prop :=
  ∀ k, ∃ map', mapSearchKey map k =
    some (map', lastAdded adds k)

theorem lastAdded_snoc
    (adds : List (Nat × Option ρ))
    (add : Nat × Option ρ)
    (k : Nat) :
    lastAdded (adds ++ [add]) k =
      if k = add.1 then add.2 else lastAdded adds k := by
  unfold lastAdded
  rw [List.reverse_append, List.reverse_singleton,
    List.singleton_append, List.find?_cons]
  by_cases hKey : k = add.1
  · rw [if_pos hKey]
    simp [hKey]
  · rw [if_neg hKey]
    simp [Ne.symm hKey]

theorem mapAddRange_isHash
    (map : RangeMap ρ)
    (base size : Nat)
    (obj : Option ρ) :
    (mapAddRange map base size obj).isHash = map.isHash := by
  unfold mapAddRange
  split
  · rfl
  · simp only
    split_ifs <;> rfl

theorem addKeyVals_snoc
    {map map' : RangeMap ρ}
    {adds : List (Nat × Option ρ)}
    (add : Nat × Option ρ)
    (hRun : addKeyVals map adds = some map')
    (hHash : map'.isHash = true) :
    addKeyVals map (adds ++ [add]) =
      some (mapAddRange map' add.1 1 add.2) := by
  unfold addKeyVals at hRun ⊢
  rw [List.foldlM_append, hRun]
  simp [mapAddKeyVal, hHash]

/- The maps that keys are added to are well formed. -/
theorem addKeyVals_wellFormed
    {adds : List (Nat × Option ρ)}
    (hKeys : ∀ add ∈ adds, add.1 + 1 < 2 ^ 64) :
    ∃ map, addKeyVals emptyHash adds = some map ∧
      map.isHash = true ∧ map.WellFormed := by
  induction adds using List.reverseRecOn with
  | nil => exact ⟨emptyHash, rfl, rfl, Apart.nil, rfl⟩
  | append_singleton before add ih =>
      rcases ih (fun a ha => hKeys a (by simp [ha])) with
        ⟨map, hRun, hHash, hMap⟩
      refine ⟨_, addKeyVals_snoc add hRun hHash, ?_, ?_⟩
      · rw [mapAddRange_isHash]
        exact hHash
      · exact (mapAddRange_spec add.2 hMap Nat.one_pos
          (hKeys add (by simp))).1

theorem findsLast_iff
    {map : RangeMap ρ}
    (hHash : map.isHash = true)
    (hMap : map.WellFormed)
    (adds : List (Nat × Option ρ)) :
    FindsLast map adds ↔
      ∀ k, valueAt map.ranges k = lastAdded adds k := by
  apply forall_congr'
  intro k
  rcases mapSearchKey_eq hHash hMap k with ⟨map1, hSearch⟩
  rw [hSearch]
  simp only [Option.some.injEq, Prod.mk.injEq]
  constructor
  · intro h
    rcases h with ⟨_, _, hEq⟩
    exact hEq
  · intro hEq
    exact ⟨map1, rfl, hEq⟩

/- One more key, added to a map that finds the others. -/
theorem findsLast_snoc_iff
    {map : RangeMap ρ}
    {adds : List (Nat × Option ρ)}
    {add : Nat × Option ρ}
    (hHash : map.isHash = true)
    (hMap : map.WellFormed)
    (hFits : add.1 + 1 < 2 ^ 64)
    (hFinds : FindsLast map adds) :
    FindsLast (mapAddRange map add.1 1 add.2)
        (adds ++ [add]) ↔
      AddsCleanly map add.1 add.2 := by
  have hAdd := mapAddRange_spec add.2 hMap Nat.one_pos hFits
  have hHash' :
      (mapAddRange map add.1 1 add.2).isHash = true := by
    rw [mapAddRange_isHash]
    exact hHash
  rw [findsLast_iff hHash hMap] at hFinds
  rw [findsLast_iff hHash' hAdd.1,
    ← valueAt_mapAddRange_iff add.2 hMap hFits]
  apply forall_congr'
  intro k
  rw [lastAdded_snoc, hFinds k]

/-
  After each call of a sequence every key is found with the
  object last added to it, exactly if each call adds its key
  cleanly to the map it meets.
-/
theorem keyVal_finiteMap_iff
    {adds : List (Nat × Option ρ)}
    (hKeys : ∀ add ∈ adds, add.1 < 2 ^ 64 - 1) :
    (∀ before, before <+: adds →
      ∃ map, addKeyVals emptyHash before = some map ∧
        FindsLast map before) ↔
    ∀ before add, before ++ [add] <+: adds →
      ∀ map, addKeyVals emptyHash before = some map →
        AddsCleanly map add.1 add.2 := by
  induction adds using List.reverseRecOn with
  | nil =>
      constructor
      · intro _ before add hPrefix
        have hNil := List.prefix_nil.mp hPrefix
        simp at hNil
      · intro _ before hPrefix
        have hNil := List.prefix_nil.mp hPrefix
        subst hNil
        refine ⟨emptyHash, rfl, ?_⟩
        intro k
        exact ⟨emptyHash, rfl⟩
  | append_singleton adds x ih =>
      have hFits : x.1 + 1 < 2 ^ 64 := by
        have hLt := hKeys x (by simp)
        omega
      have ih := ih (fun a ha => hKeys a (by simp [ha]))
      have hBefore : ∀ a ∈ adds, a.1 + 1 < 2 ^ 64 := by
        intro a ha
        have hLt := hKeys a (by simp [ha])
        omega
      rcases addKeyVals_wellFormed hBefore with
        ⟨map, hRun, hHash, hMap⟩
      have hStep := addKeyVals_snoc x hRun hHash
      constructor
      · intro hFinds before add hPrefix map' hRun'
        have hAll := ih.mp (fun l hl =>
          hFinds l (hl.trans (List.prefix_append adds [x])))
        rcases List.prefix_concat_iff.mp hPrefix with
          hEq | hInner
        · have hSame := List.append_inj' hEq rfl
          rw [hSame.1, hRun, Option.some.injEq] at hRun'
          have hAdd := List.singleton_inj.mp hSame.2
          subst hRun'
          subst hAdd
          rcases hFinds adds (List.prefix_append _ _) with
            ⟨map1, hRun1, hLast⟩
          rw [hRun, Option.some.injEq] at hRun1
          subst hRun1
          rcases hFinds _ (List.prefix_refl _) with
            ⟨map2, hRun2, hNext⟩
          rw [hStep, Option.some.injEq] at hRun2
          subst hRun2
          exact (findsLast_snoc_iff hHash hMap hFits
            hLast).mp hNext
        · exact hAll before add hInner map' hRun'
      · intro hClean before hPrefix
        have hAll := ih.mpr (fun l a hl =>
          hClean l a (hl.trans (List.prefix_append adds [x])))
        rcases List.prefix_concat_iff.mp hPrefix with
          rfl | hInner
        · rcases hAll adds (List.prefix_refl _) with
            ⟨map1, hRun1, hLast⟩
          rw [hRun, Option.some.injEq] at hRun1
          subst hRun1
          exact ⟨_, hStep, (findsLast_snoc_iff hHash hMap hFits
            hLast).mpr
              (hClean adds x (List.prefix_refl _) _ hRun)⟩
        · exact hAll before hInner

/- Keys 5 and 6: the second search finds the first object. -/
theorem neighbourKey_shadowed :
    ∃ map map', addKeyVals emptyHash
        [(5, some 1), (6, some 2)] = some map ∧
      mapSearchKey map 6 = some (map', some 1) ∧
      ¬FindsLast map [(5, some 1), (6, some 2)] := by
  refine ⟨_, _, rfl, rfl, ?_⟩
  intro hFinds
  rcases hFinds 6 with ⟨map', hSearch⟩
  cases hSearch

/- Keys 5 and 7 do not touch. -/
theorem keyVal_finiteMap_iff_apart :
    ∃ map, addKeyVals emptyHash [(5, some 1), (7, some 2)] =
        some map ∧
      FindsLast map [(5, some 1), (7, some 2)] := by
  have hKeys : ∀ add ∈ [(5, some 1), (7, some 2)],
      add.1 < 2 ^ 64 - 1 := by
    decide
  refine (keyVal_finiteMap_iff hKeys).mpr ?_ _
    (List.prefix_refl _)
  intro before add hPrefix map hRun
  rcases before with _ | ⟨a, _ | ⟨b, rest⟩⟩
  · simp only [List.nil_append,
      List.cons_prefix_cons] at hPrefix
    rw [hPrefix.1]
    cases hRun
    decide
  · simp only [List.singleton_append,
      List.cons_prefix_cons] at hPrefix
    rcases hPrefix with ⟨rfl, rfl, _⟩
    cases hRun
    decide
  · simp [List.cons_prefix_cons] at hPrefix

end Cbop
