import Cbop.Merge.Basic
import Mathlib.Data.List.Induction

/-
  The object-level checking of `key_value_checks.c`: tasks
  record the keys of an object that they access, with the
  values they saw, and `obj_correct` compares what the tasks
  of the group recorded.

  The lists of an object are held by `spec_order`. The lock
  makes each recording call one step.

  Main declarations:
    * `recordInternal`, `Recorded.record`
    * `dataRangeEq`, `entryConflicts`, `objCorrect`
    * `objCorrect_rejects_iff`
-/

namespace Cbop

------------------------------------------------------------
-- Entries
------------------------------------------------------------

/- `mem_op`. -/
inductive MemOp where
| read
| write
| readAndWrite
deriving DecidableEq, Repr

/-
  `data_range`: a number, or a copy of some bytes. The
  constructors stand for the field `is_simple`.
-/
inductive DataRange where
| simple (num : Int)
| complex (start : Bytes)
deriving DecidableEq, Repr

/- `kv_entry_t`, without the link to the next entry. -/
structure KvEntry where
  key : DataRange
  value : DataRange
deriving DecidableEq, Repr

/- `kv_object_t`, without the link to the next object. -/
structure KvObject where
  reads : Nat → List KvEntry
  writes : Nat → List KvEntry

/- Put an entry in front of a task's list. -/
def pushEntry
    (lists : Nat → List KvEntry)
    (specOrder : Nat)
    (entry : KvEntry) :
    Nat → List KvEntry :=
  Function.update lists specOrder (entry :: lists specOrder)

theorem mem_pushEntry_iff
    {lists : Nat → List KvEntry}
    {specOrder t : Nat}
    {entry e : KvEntry} :
    e ∈ pushEntry lists specOrder entry t ↔
      e ∈ lists t ∨ (t = specOrder ∧ e = entry) := by
  unfold pushEntry
  by_cases hTask : t = specOrder
  · subst hTask
    rw [Function.update_self, List.mem_cons]
    tauto
  · rw [Function.update_of_ne hTask]
    tauto

------------------------------------------------------------
-- Recording
------------------------------------------------------------

/-
  `record_internal`. The second branch never sees the
  operation `READ_AND_WRITE`, which it was written for too.
-/
def recordInternal
    (groupSize specOrder : Nat)
    (obj : KvObject)
    (op : MemOp)
    (newEntry : KvEntry) :
    Outcome KvObject :=
  if 0 < specOrder ∧ specOrder < groupSize then
    if op = .read ∨ op = .readAndWrite then
      pure { obj with
        reads := pushEntry obj.reads specOrder newEntry }
    else if op = .write ∨ op = .readAndWrite then
      -- a copy of the entry for `READ_AND_WRITE`
      pure { obj with
        writes := pushEntry obj.writes specOrder newEntry }
    else
      pure obj
  else
    .fault

/- `record_str_pr`; strings are given without their NUL. -/
def recordStrPr
    (groupSize specOrder : Nat)
    (obj : KvObject)
    (op : MemOp)
    (key value : Bytes) :
    Outcome KvObject :=
  recordInternal groupSize specOrder obj op
    { key := .complex key, value := .complex value }

/-
  `record_array`, with the bytes of the array by their
  offset.
-/
def recordArray
    (groupSize specOrder : Nat)
    (obj : KvObject)
    (op : MemOp)
    (array : Int → UInt8)
    (index : Int)
    (arrayDataSize : Nat) :
    Outcome KvObject :=
  let value := (List.range arrayDataSize).map
    (fun i => array (index * arrayDataSize + i))
  recordInternal groupSize specOrder obj op
    { key := .simple index, value := .complex value }

/- `record_str_array`. -/
def recordStrArray
    (groupSize specOrder : Nat)
    (obj : KvObject)
    (op : MemOp)
    (ind : Int)
    (value : Bytes) :
    Outcome KvObject :=
  recordInternal groupSize specOrder obj op
    { key := .simple ind, value := .complex value }

/- `record_int_pair`. -/
def recordIntPair
    (groupSize specOrder : Nat)
    (obj : KvObject)
    (op : MemOp)
    (ind value : Int) :
    Outcome KvObject :=
  recordInternal groupSize specOrder obj op
    { key := .simple ind, value := .simple value }

/- `record_int_array`. -/
def recordIntArray
    (groupSize specOrder : Nat)
    (obj : KvObject)
    (op : MemOp)
    (ind : Int)
    (array : Int → Int) :
    Outcome KvObject :=
  recordIntPair groupSize specOrder obj op ind (array ind)

------------------------------------------------------------
-- Checking
------------------------------------------------------------

/- `data_range_eq`. -/
def dataRangeEq (read write : DataRange) : Bool :=
  match read, write with
  | .simple r, .simple w => r = w
  | .complex r, .complex w =>
      if r.length ≠ w.length then
        false
      else
        (List.range r.length).all (fun i => r[i]? = w[i]?)
  | .simple _, .complex _ => false
  | .complex _, .simple _ => false

/- `entry_conflicts`. -/
def entryConflicts (read write : KvEntry) : Bool :=
  dataRangeEq read.key write.key &&
    !dataRangeEq read.value write.value

/-
  `obj_correct`: a read is compared with the writes of the
  tasks after it.
-/
def objCorrect
    (groupSize : Nat)
    (kvList : List KvObject) :
    Bool :=
  kvList.all fun obj =>
    (List.range groupSize).all fun readIndex =>
      (obj.reads readIndex).all fun read =>
        (List.range' (readIndex + 1)
            (groupSize - (readIndex + 1))).all
          fun writeIndex =>
            (obj.writes writeIndex).all fun write =>
              !entryConflicts read write

theorem dataRangeEq_iff
    {read write : DataRange} :
    dataRangeEq read write = true ↔ read = write := by
  cases read with
  | simple r =>
      cases write with
      | simple w => simp [dataRangeEq]
      | complex w => simp [dataRangeEq]
  | complex r =>
      cases write with
      | simple w => simp [dataRangeEq]
      | complex w =>
          by_cases hLength : r.length = w.length
          · simp only [dataRangeEq, hLength, ne_eq,
              not_true_eq_false, if_false, List.all_eq_true,
              List.mem_range, decide_eq_true_eq,
              DataRange.complex.injEq]
            constructor
            · intro hBytes
              apply List.ext_getElem?
              intro i
              by_cases hi : i < w.length
              · exact hBytes i hi
              · rw [List.getElem?_eq_none (by omega),
                  List.getElem?_eq_none (by omega)]
            · intro hEq i _
              rw [hEq]
          · have hNe : r ≠ w := by
              intro hEq
              exact hLength (congrArg List.length hEq)
            simp [dataRangeEq, hLength, hNe]

theorem entryConflicts_iff
    {read write : KvEntry} :
    entryConflicts read write = true ↔
      read.key = write.key ∧ read.value ≠ write.value := by
  unfold entryConflicts
  rw [Bool.and_eq_true, dataRangeEq_iff, Bool.not_eq_true',
    ← Bool.not_eq_true, dataRangeEq_iff]

theorem objCorrect_eq_false_iff
    {groupSize : Nat}
    {kvList : List KvObject} :
    objCorrect groupSize kvList = false ↔
      ∃ obj ∈ kvList, ∃ r w, r < w ∧ w < groupSize ∧
        ∃ read ∈ obj.reads r, ∃ write ∈ obj.writes w,
          read.key = write.key ∧
            read.value ≠ write.value := by
  unfold objCorrect
  simp only [List.all_eq_false, List.mem_range,
    List.mem_range'_1, Bool.not_eq_true,
    Bool.not_eq_false', entryConflicts_iff]
  constructor
  · intro h
    rcases h with ⟨obj, hObj, r, hr, read, hRead, w, hw,
      write, hWrite, hConflict⟩
    exact ⟨obj, hObj, r, w, by omega, by omega, read, hRead,
      write, hWrite, hConflict⟩
  · intro h
    rcases h with ⟨obj, hObj, r, w, hrw, hw, read, hRead,
      write, hWrite, hConflict⟩
    exact ⟨obj, hObj, r, by omega, read, hRead, w, by omega,
      write, hWrite, hConflict⟩

------------------------------------------------------------
-- Sequences of Recording Calls
------------------------------------------------------------

/- The recording call of an access, with its arguments. -/
inductive Recorded where
| strPr (key value : Bytes)
| array
    (array : Int → UInt8)
    (index : Int)
    (arrayDataSize : Nat)
| strArray (ind : Int) (value : Bytes)
| intArray (ind : Int) (array : Int → Int)
| intPair (ind value : Int)

def Recorded.record
    (groupSize specOrder : Nat)
    (obj : KvObject)
    (op : MemOp) :
    Recorded → Outcome KvObject
| .strPr key value =>
    recordStrPr groupSize specOrder obj op key value
| .array elems index size =>
    recordArray groupSize specOrder obj op elems index size
| .strArray ind value =>
    recordStrArray groupSize specOrder obj op ind value
| .intArray ind elems =>
    recordIntArray groupSize specOrder obj op ind elems
| .intPair ind value =>
    recordIntPair groupSize specOrder obj op ind value

/- An access by a task to a registered object. -/
structure ObjectAccess where
  task : Nat
  obj : Nat
  op : MemOp
  what : Recorded

/- Object `k` is the one at place `k` of `kv_list`. -/
def recordCall
    (groupSize : Nat)
    (kvList : List KvObject)
    (access : ObjectAccess) :
    Outcome (List KvObject) := do
  let obj ← Outcome.ofOption kvList[access.obj]?
  let obj ←
    access.what.record groupSize access.task obj access.op
  pure (kvList.set access.obj obj)

def recordCalls
    (groupSize : Nat)
    (kvList : List KvObject)
    (accesses : List ObjectAccess) :
    Outcome (List KvObject) :=
  accesses.foldlM (recordCall groupSize) kvList

/- Registered objects whose lists are empty. -/
def freshObjects (n : Nat) : List KvObject :=
  List.replicate n
    { reads := fun _ => [], writes := fun _ => [] }

/- The key and the value that an access is about. -/
def ObjectAccess.entry (access : ObjectAccess) : KvEntry :=
  match access.what with
  | .strPr key value =>
      { key := .complex key, value := .complex value }
  | .array elems index size =>
      { key := .simple index
        value := .complex ((List.range size).map
          (fun i => elems (index * size + i))) }
  | .strArray ind value =>
      { key := .simple ind, value := .complex value }
  | .intArray ind elems =>
      { key := .simple ind, value := .simple (elems ind) }
  | .intPair ind value =>
      { key := .simple ind, value := .simple value }

/- The access reads, or reads and writes. -/
def ObjectAccess.Reads (access : ObjectAccess) : Prop :=
  access.op = .read ∨ access.op = .readAndWrite

/- The access writes, or reads and writes. -/
def ObjectAccess.Writes (access : ObjectAccess) : Prop :=
  access.op = .write ∨ access.op = .readAndWrite

/- One key of one object with different values. -/
def ObjectAccess.Differs (a b : ObjectAccess) : Prop :=
  a.obj = b.obj ∧ a.entry.key = b.entry.key ∧
    a.entry.value ≠ b.entry.value

/- The task and the object of an access exist. -/
def ObjectAccess.Valid
    (groupSize n : Nat)
    (access : ObjectAccess) :
    Prop :=
  0 < access.task ∧ access.task < groupSize ∧
    access.obj < n

theorem Recorded.record_eq
    (groupSize : Nat)
    (obj : KvObject)
    (access : ObjectAccess) :
    access.what.record groupSize access.task obj access.op =
      recordInternal groupSize access.task obj access.op
        access.entry := by
  rcases access with ⟨task, k, op, what⟩
  cases what <;> rfl

/-
  The lists that `lists` selects hold the entries of the
  accesses of the kind `Kind`.
-/
def ListsHold
    (lists : KvObject → Nat → List KvEntry)
    (Kind : ObjectAccess → Prop)
    (kvList : List KvObject)
    (accesses : List ObjectAccess) :
    Prop :=
  ∀ k obj, kvList[k]? = some obj →
    ∀ t e, e ∈ lists obj t ↔ ∃ a ∈ accesses,
      a.obj = k ∧ a.task = t ∧ Kind a ∧ a.entry = e

/-
  What is recorded: the writes of accesses that also read
  are not.
-/
structure HoldsAccesses
    (n : Nat)
    (kvList : List KvObject)
    (accesses : List ObjectAccess) :
    Prop where
  length : kvList.length = n
  reads : ListsHold KvObject.reads ObjectAccess.Reads kvList
    accesses
  writes : ListsHold KvObject.writes
    (fun a => a.op = .write) kvList accesses

theorem holdsAccesses_fresh
    (n : Nat) :
    HoldsAccesses n (freshObjects n) [] := by
  have hEmpty : ∀ {k : Nat} {obj : KvObject},
      (freshObjects n)[k]? = some obj →
      obj = ⟨fun _ => [], fun _ => []⟩ := by
    intro k obj hObj
    exact List.eq_of_mem_replicate
      (List.mem_of_getElem? hObj)
  refine ⟨List.length_replicate, ?_, ?_⟩
  · intro k obj hObj t e
    rw [hEmpty hObj]
    simp
  · intro k obj hObj t e
    rw [hEmpty hObj]
    simp

/- What `record_internal` adds for a task of the group. -/
theorem recordInternal_spec
    {groupSize specOrder : Nat}
    (obj : KvObject)
    (op : MemOp)
    (entry : KvEntry)
    (hTask : 0 < specOrder ∧ specOrder < groupSize) :
    ∃ obj', recordInternal groupSize specOrder obj op entry =
        .ret obj' ∧
      (∀ t e, e ∈ obj'.reads t ↔ e ∈ obj.reads t ∨
        (t = specOrder ∧ e = entry ∧
          (op = .read ∨ op = .readAndWrite))) ∧
      ∀ t e, e ∈ obj'.writes t ↔ e ∈ obj.writes t ∨
        (t = specOrder ∧ e = entry ∧ op = .write) := by
  unfold recordInternal
  rw [if_pos hTask]
  cases op with
  | read =>
      exact ⟨_, rfl, by simp [mem_pushEntry_iff], by simp⟩
  | write =>
      exact ⟨_, rfl, by simp, by simp [mem_pushEntry_iff]⟩
  | readAndWrite =>
      exact ⟨_, rfl, by simp [mem_pushEntry_iff], by simp⟩

/- One more access, in the list of its object and task. -/
theorem listsHold_set
    {lists : KvObject → Nat → List KvEntry}
    {Kind : ObjectAccess → Prop}
    {kvList : List KvObject}
    {accesses : List ObjectAccess}
    {access : ObjectAccess}
    {obj obj' : KvObject}
    (hHold : ListsHold lists Kind kvList accesses)
    (hObj : kvList[access.obj]? = some obj)
    (hAdds : ∀ t e, e ∈ lists obj' t ↔ e ∈ lists obj t ∨
      (t = access.task ∧ e = access.entry ∧ Kind access)) :
    ListsHold lists Kind (kvList.set access.obj obj')
      (accesses ++ [access]) := by
  intro k other hk t e
  have hSnoc : (∃ a ∈ accesses ++ [access],
      a.obj = k ∧ a.task = t ∧ Kind a ∧ a.entry = e) ↔
        (∃ a ∈ accesses,
          a.obj = k ∧ a.task = t ∧ Kind a ∧ a.entry = e) ∨
        (access.obj = k ∧ access.task = t ∧ Kind access ∧
          access.entry = e) := by
    simp only [List.mem_append, List.mem_singleton,
      or_and_right, exists_or, exists_eq_left]
  rw [hSnoc]
  by_cases hSame : access.obj = k
  · subst hSame
    have hLength : access.obj < kvList.length :=
      (List.getElem?_eq_some_iff.mp hObj).1
    rw [List.getElem?_set_self hLength] at hk
    have hEq := Option.some.inj hk
    subst hEq
    rw [hAdds t e, hHold _ _ hObj t e]
    apply or_congr_right
    constructor
    · intro h
      rcases h with ⟨rfl, rfl, hKind⟩
      exact ⟨rfl, rfl, hKind, rfl⟩
    · intro h
      rcases h with ⟨_, rfl, hKind, rfl⟩
      exact ⟨rfl, rfl, hKind⟩
  · rw [List.getElem?_set_ne hSame] at hk
    rw [hHold k other hk t e]
    constructor
    · exact .inl
    · intro h
      rcases h with h | ⟨hEq, _⟩
      · exact h
      · exact absurd hEq hSame

theorem holdsAccesses_recordCall
    {groupSize n : Nat}
    {kvList : List KvObject}
    {accesses : List ObjectAccess}
    {access : ObjectAccess}
    (hHolds : HoldsAccesses n kvList accesses)
    (hValid : access.Valid groupSize n) :
    ∃ kvList', recordCall groupSize kvList access =
        .ret kvList' ∧
      HoldsAccesses n kvList' (accesses ++ [access]) := by
  rcases hValid with ⟨hPos, hTask, hIndex⟩
  rw [← hHolds.length] at hIndex
  have hObj := List.getElem?_eq_getElem hIndex
  rcases recordInternal_spec kvList[access.obj] access.op
      access.entry ⟨hPos, hTask⟩ with
    ⟨obj', hRecord, hReads, hWrites⟩
  refine ⟨kvList.set access.obj obj', ?_, ?_, ?_, ?_⟩
  · unfold recordCall
    rw [hObj]
    simp only [Outcome.ofOption, Outcome.ret_bind,
      Recorded.record_eq, hRecord]
    rfl
  · rw [List.length_set]
    exact hHolds.length
  · exact listsHold_set hHolds.reads hObj hReads
  · exact listsHold_set hHolds.writes hObj hWrites

theorem holdsAccesses_recordCalls
    {groupSize n : Nat}
    {accesses : List ObjectAccess}
    (hValid : ∀ a ∈ accesses, a.Valid groupSize n) :
    ∃ kvList, recordCalls groupSize (freshObjects n)
        accesses = .ret kvList ∧
      HoldsAccesses n kvList accesses := by
  induction accesses using List.reverseRecOn with
  | nil => exact ⟨_, rfl, holdsAccesses_fresh n⟩
  | append_singleton before access ih =>
      rcases ih (fun a ha => hValid a (by simp [ha])) with
        ⟨kvList, hRun, hHolds⟩
      rcases holdsAccesses_recordCall hHolds
          (hValid access (by simp)) with
        ⟨kvList', hCall, hHolds'⟩
      refine ⟨kvList', ?_, hHolds'⟩
      unfold recordCalls at hRun ⊢
      rw [List.foldlM_append, hRun]
      simp [hCall]

------------------------------------------------------------
-- Stale Reads
------------------------------------------------------------

/-
  A task read a value of a key, and an earlier task wrote
  another one.
-/
def StaleRead (accesses : List ObjectAccess) : Prop :=
  ∃ r ∈ accesses, ∃ w ∈ accesses,
    w.task < r.task ∧ r.Reads ∧ w.Writes ∧ r.Differs w

/-
  A task read a value of a key, and a later task wrote
  another one without reading the key.
-/
def OverwrittenRead (accesses : List ObjectAccess) : Prop :=
  ∃ r ∈ accesses, ∃ w ∈ accesses,
    r.task < w.task ∧ r.Reads ∧ w.op = .write ∧ r.Differs w

/- The check finds the reads that are overwritten later. -/
theorem objCorrect_finds
    {groupSize n : Nat}
    {kvList : List KvObject}
    {accesses : List ObjectAccess}
    (hValid : ∀ a ∈ accesses, a.Valid groupSize n)
    (hHolds : HoldsAccesses n kvList accesses) :
    objCorrect groupSize kvList = false ↔
      OverwrittenRead accesses := by
  rw [objCorrect_eq_false_iff]
  constructor
  · intro h
    rcases h with ⟨obj, hObj, i, j, hij, _, read, hRead,
      write, hWrite, hKey, hValue⟩
    rcases List.mem_iff_getElem?.mp hObj with ⟨k, hk⟩
    rcases (hHolds.reads k obj hk i read).mp hRead with
      ⟨r, hr, hrObj, hrTask, hReads, rfl⟩
    rcases (hHolds.writes k obj hk j write).mp hWrite with
      ⟨w, hw, hwObj, hwTask, hOp, rfl⟩
    exact ⟨r, hr, w, hw, by omega, hReads, hOp,
      hrObj.trans hwObj.symm, hKey, hValue⟩
  · intro h
    rcases h with ⟨r, hr, w, hw, hOrder, hReads, hOp, hObj,
      hKey, hValue⟩
    have hIndex : r.obj < kvList.length := by
      rw [hHolds.length]
      exact (hValid r hr).2.2
    have hk := List.getElem?_eq_getElem hIndex
    refine ⟨kvList[r.obj], List.getElem_mem hIndex,
      r.task, w.task, hOrder, (hValid w hw).2.1,
      r.entry, ?_, w.entry, ?_, hKey, hValue⟩
    · exact (hHolds.reads _ _ hk _ _).mpr
        ⟨r, hr, rfl, rfl, hReads, rfl⟩
    · exact (hHolds.writes _ _ hk _ _).mpr
        ⟨w, hw, hObj.symm, rfl, hOp, rfl⟩

/-
  The check rejects the stale reads of a group exactly if
  there are none, or if a read is also overwritten by a
  later task.
-/
theorem objCorrect_rejects_iff
    {groupSize n : Nat}
    {accesses : List ObjectAccess}
    (hValid : ∀ a ∈ accesses, a.Valid groupSize n) :
    ∃ kvList, recordCalls groupSize (freshObjects n)
        accesses = .ret kvList ∧
      ((StaleRead accesses →
          objCorrect groupSize kvList = false) ↔
        (¬StaleRead accesses ∨ OverwrittenRead accesses)) := by
  rcases holdsAccesses_recordCalls hValid with
    ⟨kvList, hRun, hHolds⟩
  refine ⟨kvList, hRun, ?_⟩
  rw [objCorrect_finds hValid hHolds]
  exact imp_iff_not_or

/- Task 1 writes 1 to a key, and task 2 reads 2 there. -/
def staleAccesses : List ObjectAccess :=
  [⟨1, 0, .write, .intPair 0 1⟩, ⟨2, 0, .read, .intPair 0 2⟩]

theorem staleRead_passes :
    (∀ a ∈ staleAccesses, a.Valid 3 1) ∧
      StaleRead staleAccesses ∧
      ∃ kvList, recordCalls 3 (freshObjects 1)
          staleAccesses = .ret kvList ∧
        objCorrect 3 kvList = true := by
  refine ⟨?_, ?_, _, rfl, by decide⟩
  · simp [staleAccesses, ObjectAccess.Valid]
  · simp [StaleRead, staleAccesses, ObjectAccess.Reads,
      ObjectAccess.Writes, ObjectAccess.Differs,
      ObjectAccess.entry]

/- It fails if task 1 read the key and task 2 writes it. -/
theorem objCorrect_rejects_iff_overwritten :
    ∃ kvList, recordCalls 3 (freshObjects 1)
        [⟨1, 0, .readAndWrite, .intPair 0 1⟩,
          ⟨2, 0, .read, .intPair 0 2⟩,
          ⟨2, 0, .write, .intPair 0 3⟩] = .ret kvList ∧
      objCorrect 3 kvList = false := by
  have hValid : ∀ a ∈ ([⟨1, 0, .readAndWrite, .intPair 0 1⟩,
      ⟨2, 0, .read, .intPair 0 2⟩,
      ⟨2, 0, .write, .intPair 0 3⟩] : List ObjectAccess),
        a.Valid 3 1 := by
    simp [ObjectAccess.Valid]
  rcases objCorrect_rejects_iff hValid with
    ⟨kvList, hRun, hRejects⟩
  refine ⟨kvList, hRun, hRejects.mpr (.inr ?_) ?_⟩
  · simp [OverwrittenRead, ObjectAccess.Reads,
      ObjectAccess.Differs, ObjectAccess.entry]
  · simp [StaleRead, ObjectAccess.Reads,
      ObjectAccess.Writes, ObjectAccess.Differs,
      ObjectAccess.entry]

end Cbop
