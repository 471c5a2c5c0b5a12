import Cbop.Lib.Words
import Cbop.Merge.Basic

/-
  Arrays with access maps, of `ary_bitmap.c`. Behind its
  elements an array has two maps of one bit for each
  element, for the elements used and for those promised.

  Lengths, element sizes and indices are `uint32_t`; where
  the code multiplies two of them the product wraps. Sizes
  and addresses are 64 bits wide and do not.

  Main declarations:
    * `aryMallocWithMap`, `aryReallocWithMap`
    * `aryUseElem`, `aryPromiseElem`, `scanAryMaps`
    * `scanAryMaps_reports`
    * `exactSizes_iff`
-/

namespace Cbop

------------------------------------------------------------
-- Arrays With Maps
------------------------------------------------------------

/- The product of two 32-bit numbers. -/
def mul32 (a b : Nat) : Nat :=
  a * b % 2 ^ 32

/- `ary_map_entries`. -/
def aryMapEntries (arySize : Nat) : Nat :=
  (arySize >>> 5) + (if arySize &&& 0x1f ≠ 0 then 1 else 0)

/- What the functions of the library are called with. -/
inductive MonitorCall where
| recordRead (base size : Nat)
| recordWrite (base size : Nat)
| promise (base size : Nat)
deriving DecidableEq, Repr

/- `get_ary_use_map`. -/
def getAryUseMap (base length elemSize : Nat) : Nat :=
  base + mul32 elemSize length

/- `get_ary_mod_map`. -/
def getAryModMap (base length elemSize : Nat) : Nat :=
  base + mul32 elemSize length + aryMapEntries length * 4

/- `memset` with the value 0. -/
def memsetZero
    (mem : Memory)
    (base size : Nat) :
    Memory :=
  fun a => if base ≤ a ∧ a < base + size then 0 else mem a

/- `ary_maps_reset`. -/
def aryMapsReset
    (mem : Memory)
    (base length elemSize : Nat) :
    Memory × MonitorCall :=
  let mapsBase := getAryUseMap base length elemSize
  let size := aryMapEntries length * 2 * 4
  (memsetZero mem mapsBase size, .promise mapsBase size)

/- The size that both functions below ask for. -/
def mapRequest (length elemSize : Nat) : Nat :=
  mul32 length elemSize + aryMapEntries length * 4 * 2

/-
  `ary_malloc_with_map`, where `malloc` returns a block and
  leaves a memory.
-/
def aryMallocWithMap
    (malloc : Nat → Nat × Memory)
    (length elemSize : Nat) :
    Nat × Memory × MonitorCall :=
  let (ary, mem) := malloc (mapRequest length elemSize)
  (ary, aryMapsReset mem ary length elemSize)

/- `ary_realloc_with_map`. -/
def aryReallocWithMap
    (realloc : Nat → Nat → Nat × Memory)
    (old newLen elemSize : Nat) :
    Nat × Memory × MonitorCall :=
  let (ary, mem) := realloc old (mapRequest newLen elemSize)
  (ary, aryMapsReset mem ary newLen elemSize)

/- `mark_bit`. -/
def markBit
    (mem : Memory)
    (map idx : Nat) :
    Memory :=
  let wordIdx := idx >>> 5
  let offset := idx &&& 0x1f
  storeWord mem (map + 4 * wordIdx)
    (loadWord mem (map + 4 * wordIdx) ||| (0x1 <<< offset))

/- `ary_use_elem`. -/
def aryUseElem
    (mem : Memory)
    (base length elemSize idx : Nat) :
    Memory :=
  markBit mem (getAryUseMap base length elemSize) idx

/- `ary_promise_elem`. -/
def aryPromiseElem
    (mem : Memory)
    (base length elemSize idx : Nat) :
    Memory :=
  markBit mem (getAryModMap base length elemSize) idx

/- `scan_one_map`: the calls of `bop_mon`, in order. -/
def scanOneMap
    (mem : Memory)
    (base length elemSize map : Nat)
    (bopMon : Nat → Nat → MonitorCall) :
    List MonitorCall :=
  let num := aryMapEntries length
  (List.range num).flatMap fun i =>
    let word := loadWord mem (map + 4 * i)
    let idx := (i <<< 5) % 2 ^ 32
    let set := (List.range 32).filter
      (fun j => (word >>> j) &&& 0x1 ≠ 0)
    set.map fun j => bopMon
      (base + mul32 ((idx + j) % 2 ^ 32) elemSize) elemSize

/- `scan_ary_maps`. -/
def scanAryMaps
    (mem : Memory)
    (base length elemSize : Nat) :
    List MonitorCall :=
  scanOneMap mem base length elemSize
      (getAryUseMap base length elemSize) .recordRead ++
    scanOneMap mem base length elemSize
      (getAryModMap base length elemSize) .recordWrite

------------------------------------------------------------
-- Maps as Sets of Indices
------------------------------------------------------------

theorem and_thirtyOne (n : Nat) : n &&& 0x1f = n % 32 :=
  Nat.and_two_pow_sub_one_eq_mod n 5

/- One word for each 32 elements begun. -/
theorem aryMapEntries_eq
    (length : Nat) :
    aryMapEntries length = (length + 31) / 32 := by
  unfold aryMapEntries
  rw [and_thirtyOne, Nat.shiftRight_eq_div_pow]
  split <;> omega

theorem markBit_eq
    (mem : Memory)
    (map idx : Nat) :
    markBit mem map idx = setWordBit mem map idx := by
  unfold markBit setWordBit
  simp only [and_thirtyOne, Nat.shiftRight_eq_div_pow,
    Nat.one_shiftLeft, Nat.reducePow]

theorem mul32_of_lt
    {a b : Nat}
    (hSmall : a * b < 2 ^ 32) :
    mul32 a b = a * b :=
  Nat.mod_eq_of_lt hSmall

/- A scan reports the bits of the map, in order. -/
theorem scanOneMap_eq
    (mem : Memory)
    (base elemSize map : Nat)
    (bopMon : Nat → Nat → MonitorCall)
    {length : Nat}
    (hLength : length < 2 ^ 32) :
    scanOneMap mem base length elemSize map bopMon =
      ((List.range (32 * aryMapEntries length)).filter
        (wordBit mem map)).map
          (fun k => bopMon (base + mul32 k elemSize)
            elemSize) := by
  rw [filter_wordBit, List.map_flatMap]
  unfold scanOneMap
  apply List.flatMap_congr
  intro i hi
  rw [List.mem_range, aryMapEntries_eq] at hi
  rw [List.map_map]
  have hBits : (fun j => decide
      (loadWord mem (map + 4 * i) >>> j &&& 0x1 ≠ 0)) =
        (loadWord mem (map + 4 * i)).testBit := by
    funext j
    rw [Bool.eq_iff_iff, decide_eq_true_iff, Nat.testBit,
      Nat.and_comm, bne_iff_ne]
  simp only [hBits]
  apply List.map_congr_left
  intro j hj
  have hj := List.mem_range.mp (List.mem_of_mem_filter hj)
  have hIndex : ((i <<< 5) % 2 ^ 32 + j) % 2 ^ 32 =
      32 * i + j := by
    rw [Nat.shiftLeft_eq]
    omega
  rw [Function.comp_apply, hIndex]

------------------------------------------------------------
-- Marks
------------------------------------------------------------

/- A call that marks an element. -/
inductive Mark where
| use (idx : Nat)
| promise (idx : Nat)
deriving DecidableEq, Repr

def Mark.idx : Mark → Nat
| .use idx => idx
| .promise idx => idx

def mark
    (base length elemSize : Nat)
    (mem : Memory) :
    Mark → Memory
| .use idx => aryUseElem mem base length elemSize idx
| .promise idx => aryPromiseElem mem base length elemSize idx

/- The bit of an element in the map of its used elements. -/
def usedBit
    (base length elemSize : Nat)
    (mem : Memory)
    (k : Nat) :
    Bool :=
  wordBit mem (getAryUseMap base length elemSize) k

/- The bit in the map of the promised elements. -/
def promisedBit
    (base length elemSize : Nat)
    (mem : Memory)
    (k : Nat) :
    Bool :=
  wordBit mem (getAryModMap base length elemSize) k

/- A new array: its maps are reset. -/
inductive FreshArray
    (base length elemSize : Nat)
    (mem : Memory) :
    Prop where
| malloc
    {malloc : Nat → Nat × Memory}
    {call : MonitorCall} :
    aryMallocWithMap malloc length elemSize =
        (base, mem, call) →
      FreshArray base length elemSize mem
| realloc
    {realloc : Nat → Nat → Nat × Memory}
    {old : Nat}
    {call : MonitorCall} :
    aryReallocWithMap realloc old length elemSize =
        (base, mem, call) →
      FreshArray base length elemSize mem

theorem FreshArray.reset
    {base length elemSize : Nat}
    {mem : Memory}
    (hFresh : FreshArray base length elemSize mem) :
    ∃ mem0, mem =
      (aryMapsReset mem0 base length elemSize).1 := by
  cases hFresh with
  | @malloc malloc call h =>
      unfold aryMallocWithMap at h
      simp only [Prod.mk.injEq] at h
      rcases h with ⟨rfl, h⟩
      exact ⟨_, (congrArg Prod.fst h).symm⟩
  | @realloc realloc old call h =>
      unfold aryReallocWithMap at h
      simp only [Prod.mk.injEq] at h
      rcases h with ⟨rfl, h⟩
      exact ⟨_, (congrArg Prod.fst h).symm⟩

/- No bit of the words that are reset is set. -/
theorem wordBit_memsetZero
    {mem : Memory}
    {base size map k : Nat}
    (hLow : base ≤ map + 4 * (k / 32))
    (hHigh : map + 4 * (k / 32) + 4 ≤ base + size) :
    wordBit (memsetZero mem base size) map k = false := by
  have hZero : loadWord (memsetZero mem base size)
      (map + 4 * (k / 32)) = 0 := by
    have hByte : ∀ i, i < 4 →
        memsetZero mem base size
          (map + 4 * (k / 32) + i) = 0 := by
      intro i hi
      unfold memsetZero
      rw [if_pos (by omega)]
    have h0 := hByte 0 (by omega)
    rw [Nat.add_zero] at h0
    unfold loadWord
    rw [h0, hByte 1 (by omega), hByte 2 (by omega),
      hByte 3 (by omega)]
    rfl
  unfold wordBit
  rw [hZero, Nat.zero_testBit]

theorem FreshArray.bits
    {base length elemSize : Nat}
    {mem : Memory}
    (hFresh : FreshArray base length elemSize mem)
    {k : Nat}
    (hk : k < 32 * aryMapEntries length) :
    usedBit base length elemSize mem k = false ∧
      promisedBit base length elemSize mem k = false := by
  rcases hFresh.reset with ⟨mem0, rfl⟩
  unfold usedBit promisedBit aryMapsReset getAryModMap
    getAryUseMap
  constructor
  · exact wordBit_memsetZero (by omega) (by omega)
  · exact wordBit_memsetZero (by omega) (by omega)

------------------------------------------------------------
-- Reports of the Marks
------------------------------------------------------------

section ExactProduct

variable (base : Nat) {length elemSize : Nat}

/-
  What a mark changes: one bit of its own map, and nothing
  in the elements or in the other map.
-/
theorem mark_spec
    (hProduct : length * elemSize < 2 ^ 32)
    (mem : Memory)
    {m : Mark}
    (hIndex : m.idx < length) :
    (∀ a, a < length * elemSize →
      mark base length elemSize mem m (base + a) =
        mem (base + a)) ∧
    ∀ k, k < 32 * aryMapEntries length →
      usedBit base length elemSize
          (mark base length elemSize mem m) k =
        (usedBit base length elemSize mem k ||
          decide (m = .use k)) ∧
      promisedBit base length elemSize
          (mark base length elemSize mem m) k =
        (promisedBit base length elemSize mem k ||
          decide (m = .promise k)) := by
  have hUse : getAryUseMap base length elemSize =
      base + length * elemSize := by
    unfold getAryUseMap
    rw [mul32_of_lt (by rw [Nat.mul_comm]; exact hProduct),
      Nat.mul_comm]
  have hMod : getAryModMap base length elemSize =
      base + length * elemSize +
        aryMapEntries length * 4 := by
    unfold getAryModMap
    rw [← hUse]
    rfl
  have hEntry : m.idx / 32 < aryMapEntries length := by
    rw [aryMapEntries_eq]
    omega
  cases m with
  | use idx =>
      have hEntry : idx / 32 < aryMapEntries length := hEntry
      simp only [usedBit, promisedBit, mark, aryUseElem,
        markBit_eq, hUse, hMod]
      refine ⟨?_, ?_⟩
      · intro a ha
        exact setWordBit_of_outside (by omega)
      · intro k hk
        constructor
        · rw [wordBit_setWordBit]
          simp
        · rw [wordBit_setWordBit_of_apart (by omega)]
          simp
  | promise idx =>
      have hEntry : idx / 32 < aryMapEntries length := hEntry
      simp only [usedBit, promisedBit, mark, aryPromiseElem,
        markBit_eq, hUse, hMod]
      refine ⟨?_, ?_⟩
      · intro a ha
        exact setWordBit_of_outside (by omega)
      · intro k hk
        constructor
        · rw [wordBit_setWordBit_of_apart (by omega)]
          simp
        · rw [wordBit_setWordBit]
          simp

/- The maps after any marks hold the marked elements. -/
theorem marks_spec
    (hProduct : length * elemSize < 2 ^ 32)
    (mem : Memory)
    {marks : List Mark}
    (hMarks : ∀ m ∈ marks, m.idx < length)
    {k : Nat}
    (hk : k < 32 * aryMapEntries length) :
    usedBit base length elemSize
        (marks.foldl (mark base length elemSize) mem) k =
      (usedBit base length elemSize mem k ||
        decide (Mark.use k ∈ marks)) ∧
    promisedBit base length elemSize
        (marks.foldl (mark base length elemSize) mem) k =
      (promisedBit base length elemSize mem k ||
        decide (Mark.promise k ∈ marks)) := by
  induction marks generalizing mem with
  | nil => simp
  | cons m rest ih =>
      have hStep := (mark_spec base hProduct mem
        (hMarks m (by simp))).2 k hk
      have hRest := ih (mark base length elemSize mem m)
        (fun m' hm' => hMarks m' (by simp [hm']))
      rw [List.foldl_cons, hRest.1, hRest.2, hStep.1, hStep.2]
      constructor
      · simp only [Bool.or_assoc, List.mem_cons,
          Bool.decide_or, eq_comm]
      · simp only [Bool.or_assoc, List.mem_cons,
          Bool.decide_or, eq_comm]

/-
  When no product wraps a scan reports the elements at their
  addresses, and then the bits behind the last element.
-/
theorem scanOneMap_split
    (hProduct : length * elemSize < 2 ^ 32)
    (hLength : length < 2 ^ 32)
    (mem : Memory)
    (map : Nat)
    (bopMon : Nat → Nat → MonitorCall) :
    scanOneMap mem base length elemSize map bopMon =
      ((List.range length).filter (wordBit mem map)).map
          (fun k => bopMon (base + k * elemSize) elemSize) ++
        ((List.range' length
            (32 * aryMapEntries length - length)).filter
          (wordBit mem map)).map
            (fun k => bopMon (base + mul32 k elemSize)
              elemSize) := by
  have hRange : List.range (32 * aryMapEntries length) =
      List.range length ++ List.range' length
        (32 * aryMapEntries length - length) := by
    have hEntries : length ≤ 32 * aryMapEntries length := by
      rw [aryMapEntries_eq]
      omega
    have hAppend := List.range'_append_1 (s := 0)
      (m := length) (n := 32 * aryMapEntries length - length)
    rw [Nat.zero_add, Nat.add_sub_cancel' hEntries] at hAppend
    rw [List.range_eq_range', List.range_eq_range', hAppend]
  rw [scanOneMap_eq mem base elemSize map bopMon hLength,
    hRange, List.filter_append, List.map_append]
  congr 1
  apply List.map_congr_left
  intro k hk
  have hk := List.mem_range.mp (List.mem_of_mem_filter hk)
  have hSmall : k * elemSize < 2 ^ 32 :=
    (Nat.mul_le_mul_right elemSize (Nat.le_of_lt hk)).trans_lt
      hProduct
  rw [mul32_of_lt hSmall]

/- A scan of a map that holds a set of the elements. -/
theorem scanOneMap_exact
    (hProduct : length * elemSize < 2 ^ 32)
    (hLength : length < 2 ^ 32)
    {mem : Memory}
    {map : Nat}
    {bopMon : Nat → Nat → MonitorCall}
    {Marked : Nat → Prop}
    [DecidablePred Marked]
    (hBits : ∀ k, k < 32 * aryMapEntries length →
      wordBit mem map k = decide (Marked k))
    (hInside : ∀ k, Marked k → k < length) :
    scanOneMap mem base length elemSize map bopMon =
      ((List.range length).filter Marked).map
        (fun k => bopMon (base + k * elemSize) elemSize) := by
  have hEntries : length ≤ 32 * aryMapEntries length := by
    rw [aryMapEntries_eq]
    omega
  have hElements : (List.range length).filter
      (wordBit mem map) = (List.range length).filter Marked := by
    apply List.filter_congr
    intro k hk
    rw [List.mem_range] at hk
    exact hBits k (by omega)
  have hBehind : (List.range' length
      (32 * aryMapEntries length - length)).filter
        (wordBit mem map) = [] := by
    rw [List.filter_eq_nil_iff]
    intro k hk
    rw [List.mem_range'_1] at hk
    rw [hBits k (by omega), decide_eq_true_iff]
    intro hMarked
    have hLt := hInside k hMarked
    omega
  rw [scanOneMap_split base hProduct hLength mem map bopMon,
    hElements, hBehind, List.map_nil, List.append_nil]

/-
  After any marks of a new array a scan reports the used
  elements as read and then the promised ones as written,
  each in order, and a mark changes neither the elements nor
  the other map.
-/
theorem scanAryMaps_reports
    (hElem : 0 < elemSize)
    (hSize : length * elemSize + 8 * ((length + 31) / 32) <
      2 ^ 32)
    {mem : Memory}
    (hFresh : FreshArray base length elemSize mem)
    {marks : List Mark}
    (hMarks : ∀ m ∈ marks, m.idx < length) :
    scanAryMaps
        (marks.foldl (mark base length elemSize) mem)
        base length elemSize =
      ((List.range length).filter
          (fun k => .use k ∈ marks)).map
        (fun k => .recordRead (base + k * elemSize)
          elemSize) ++
      ((List.range length).filter
          (fun k => .promise k ∈ marks)).map
        (fun k => .recordWrite (base + k * elemSize)
          elemSize) ∧
    ∀ before m after, marks = before ++ m :: after →
      ∀ mem1 mem2,
        mem1 =
          before.foldl (mark base length elemSize) mem →
        mem2 = mark base length elemSize mem1 m →
        (∀ a, a < length * elemSize →
          mem2 (base + a) = mem1 (base + a)) ∧
        ∀ k, k < 32 * aryMapEntries length →
          (m = .use m.idx →
            promisedBit base length elemSize mem2 k =
              promisedBit base length elemSize mem1 k) ∧
          (m = .promise m.idx →
            usedBit base length elemSize mem2 k =
              usedBit base length elemSize mem1 k) := by
  have hProduct : length * elemSize < 2 ^ 32 := by omega
  have hLength : length < 2 ^ 32 :=
    (Nat.le_mul_of_pos_right length hElem).trans_lt hProduct
  have hBits : ∀ k, k < 32 * aryMapEntries length → _ :=
    fun k hk => marks_spec base hProduct mem hMarks hk
  constructor
  · unfold scanAryMaps
    congr 1
    · apply scanOneMap_exact base hProduct hLength
      · intro k hk
        have hUsed := (hBits k hk).1
        rw [(hFresh.bits hk).1, Bool.false_or] at hUsed
        exact hUsed
      · intro k hk
        exact hMarks _ hk
    · apply scanOneMap_exact base hProduct hLength
      · intro k hk
        have hPromised := (hBits k hk).2
        rw [(hFresh.bits hk).2, Bool.false_or] at hPromised
        exact hPromised
      · intro k hk
        exact hMarks _ hk
  · intro before m after hSplit mem1 mem2 _ hMem2
    subst hMem2
    have hStep := mark_spec base hProduct mem1
      (hMarks m (by simp [hSplit]))
    refine ⟨hStep.1, ?_⟩
    intro k hk
    refine ⟨?_, ?_⟩
    · intro hUse
      rw [(hStep.2 k hk).2, hUse]
      simp
    · intro hPromise
      rw [(hStep.2 k hk).1, hPromise]
      simp

end ExactProduct

/- An array of 100 pointers, as two of them are marked. -/
theorem scanAryMaps_reports_hundred :
    ∃ mem, FreshArray 4096 100 8 mem ∧
      scanAryMaps
          ([.use 99, .promise 31].foldl (mark 4096 100 8) mem)
          4096 100 8 =
        [.recordRead 4888 8, .recordWrite 4344 8] := by
  have hMalloc :
      aryMallocWithMap (fun _ => (4096, fun _ => 0)) 100 8 =
        (4096, aryMapsReset (fun _ => 0) 4096 100 8) := rfl
  have hMarks :
      ∀ m ∈ [Mark.use 99, .promise 31], m.idx < 100 := by
    decide
  refine ⟨_, .malloc hMalloc, ?_⟩
  have hScan := (scanAryMaps_reports 4096 (by decide)
    (by decide) (.malloc hMalloc) hMarks).1
  rw [hScan]
  decide

------------------------------------------------------------
-- Products That Wrap
------------------------------------------------------------

/-
  The sizes and offsets of an array are those computed
  without wrapping around.
-/
structure ExactSizes (length elemSize : Nat) : Prop where
  malloc : ∃ n,
    length * elemSize + 8 * ((length + 31) / 32) ≤ n ∧
      ∀ malloc, (aryMallocWithMap malloc length elemSize).1 =
        (malloc n).1
  realloc : ∃ n,
    length * elemSize + 8 * ((length + 31) / 32) ≤ n ∧
      ∀ realloc old,
        (aryReallocWithMap realloc old length elemSize).1 =
          (realloc old n).1
  useMap : ∀ base, getAryUseMap base length elemSize =
    base + length * elemSize
  modMap : ∀ base, getAryModMap base length elemSize =
    base + length * elemSize + 4 * ((length + 31) / 32)
  scan : ∀ mem base map bopMon,
    ((List.range length).filter (wordBit mem map)).map
        (fun k => bopMon (base + k * elemSize) elemSize) <+:
      scanOneMap mem base length elemSize map bopMon

/- The size that is requested is enough. -/
theorem ExactSizes.request
    {length elemSize : Nat}
    (hExact : ExactSizes length elemSize) :
    length * elemSize + 8 * ((length + 31) / 32) ≤
      mapRequest length elemSize := by
  rcases hExact.malloc with ⟨n, hEnough, hRequest⟩
  -- a block whose address is the size requested
  have hSize := hRequest (fun n => (n, fun _ => 0))
  change mapRequest length elemSize = n at hSize
  rw [hSize]
  exact hEnough

/-
  The sizes and offsets are exact where the elements of the
  array take less than 2^32 bytes, and only there.
-/
theorem exactSizes_iff
    {length elemSize : Nat}
    (hLength : length < 2 ^ 32) :
    ExactSizes length elemSize ↔
      length * elemSize < 2 ^ 32 := by
  constructor
  · intro hExact
    have hRequest := hExact.request
    unfold mapRequest at hRequest
    rw [aryMapEntries_eq] at hRequest
    have hWrapped : mul32 length elemSize < 2 ^ 32 :=
      Nat.mod_lt _ (by decide)
    omega
  · intro hProduct
    have hSwapped : mul32 elemSize length =
        length * elemSize := by
      rw [mul32_of_lt (by rw [Nat.mul_comm]; exact hProduct),
        Nat.mul_comm]
    have hEnough :
        length * elemSize + 8 * ((length + 31) / 32) ≤
          mapRequest length elemSize := by
      unfold mapRequest
      rw [mul32_of_lt hProduct, aryMapEntries_eq]
      omega
    refine ⟨⟨_, hEnough, fun _ => rfl⟩,
      ⟨_, hEnough, fun _ _ => rfl⟩, ?_, ?_, ?_⟩
    · intro base
      unfold getAryUseMap
      rw [hSwapped]
    · intro base
      unfold getAryModMap
      rw [hSwapped, aryMapEntries_eq]
      omega
    · intro mem base map bopMon
      rw [scanOneMap_split base hProduct hLength]
      exact List.prefix_append _ _

/-
  65536 elements of 65536 bytes: 16384 bytes are requested,
  and the map of the used elements is the array itself.
-/
theorem squareArray_wraps :
    mapRequest 65536 65536 = 16384 ∧
      getAryUseMap 0 65536 65536 = 0 ∧
      ¬(∀ length elemSize, length < 2 ^ 32 →
        elemSize < 2 ^ 32 → ExactSizes length elemSize) := by
  refine ⟨by decide, by decide, ?_⟩
  intro h
  have hRequest :=
    (h 65536 65536 (by decide) (by decide)).request
  exact absurd hRequest (by decide)

/- The array of 100 pointers. -/
theorem exactSizes_iff_hundred : ExactSizes 100 8 :=
  (exactSizes_iff (by decide)).mpr (by decide)

end Cbop
