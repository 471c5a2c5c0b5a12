import Cbop.Merge.Serialise
import Cbop.Ppr.NoAborts

/-
  A task group and its memories: the protocol of the group
  together with the copy-and-merge port.

  Every task runs its region on a private copy of one
  memory and records its accesses. Checks, data commits and
  the group commit work on the shared write union and the
  shared patches.

  Main declarations:
    * `Region`, `MergeGroup`
    * `MergeData`, `mergeReact`, `mergeMachine`
    * `MergeInv`, `mergeInv_of_reachable`
-/

namespace Cbop

------------------------------------------------------------
-- Regions
------------------------------------------------------------

/-
  The region of a task: what it does to a memory, and its
  calls of `BOP_record_read` and `BOP_record_write`. It
  records every byte it reads before writing it and every
  byte it writes.
-/
structure Region where
  body : Memory → Memory
  readCalls : Memory → List (Nat × Nat)
  writeCalls : Memory → List (Nat × Nat)
  frame : ∀ m a, a ∉ callBytes (writeCalls m) →
    body m a = m a
  determined : ∀ m m',
    Set.EqOn m m' (callBytes (readCalls m)) →
      writeCalls m' = writeCalls m ∧
        Set.EqOn (body m') (body m)
          (callBytes (writeCalls m))

/- A region as a transaction on memory. -/
def Region.transaction (r : Region) : Transaction Nat UInt8 where
  run := r.body
  reads := fun m => callBytes (r.readCalls m)
  writes := fun m => callBytes (r.writeCalls m)
  frame := r.frame
  determined := by
    intro m m' hEq
    rcases r.determined m m' hEq with ⟨hWrites, hValues⟩
    exact ⟨by rw [hWrites], hValues⟩

/-
  A group: its tasks' regions, the memory they all start
  from, and the shared state it finds.
-/
structure MergeGroup where
  size : Nat
  region : Nat → Region
  memory : Memory
  pprIndex : Nat
  patches : Nat → RangeMap Bytes
  atomicSet : Bool
  mainLeads : Bool

namespace MergeGroup

def readMap (g : MergeGroup) (k : Nat) : RangeMap Bytes :=
  recordAll ((g.region k).readCalls g.memory)

def writeMap (g : MergeGroup) (k : Nat) : RangeMap Bytes :=
  recordAll ((g.region k).writeCalls g.memory)

/- The protocol's view of the group. -/
def protocolGroup (g : MergeGroup) : Group (MemRange Bytes) where
  size := g.size
  writes := fun k => (g.writeMap k).ranges
  atomicSet := g.atomicSet
  mainLeads := g.mainLeads

/- The memory after running the regions one by one. -/
def sequential (g : MergeGroup) (n : Nat) : Memory :=
  (List.range n).foldl
    (fun m k => (g.region k).body m) g.memory

/- The recorded calls of the group's tasks. -/
structure Records (g : MergeGroup) : Prop where
  reads : ∀ k, k < g.size →
    (∀ c ∈ (g.region k).readCalls g.memory, CallOk c) ∧
      RecordsExactly ((g.region k).readCalls g.memory)
  writes : ∀ k, k < g.size →
    (∀ c ∈ (g.region k).writeCalls g.memory, CallOk c) ∧
      RecordsExactly ((g.region k).writeCalls g.memory)

/- Stored write ranges of two tasks are equal or disjoint. -/
def WritesMatch (g : MergeGroup) : Prop :=
  ∀ i, i < g.size → ∀ j, j < g.size → i ≠ j →
    ∀ r ∈ (g.writeMap i).ranges,
      ∀ s ∈ (g.writeMap j).ranges, EqualOrDisjoint r s

end MergeGroup

------------------------------------------------------------
-- The Machine
------------------------------------------------------------

/- The memories, the write union and the patches. -/
structure MergeData where
  mem : Nat → Memory
  writeUnion : RangeMap Bytes
  patches : Nat → RangeMap Bytes

/- The effect of a task's step on the data. -/
def mergeGo
    (g : MergeGroup)
    (k : Nat)
    (d : MergeData) :
    Pc (MemRange Bytes) → Option MergeData
| .region =>
    some { d with
      mem := Function.update d.mem k
        ((g.region k).body (d.mem k)) }
| .checking =>
    -- without a conflict; `fail` is the other outcome
    match checkForOverlap (freshCheck d.writeUnion)
        (g.readMap k) with
    | .ret (st, 0) =>
        some { d with writeUnion := st.writeUnion }
    | _ => none
| .inserting (range :: _) =>
    match unionAddRange (g.pprIndex + k) d.writeUnion
        range with
    | .ret writeUnion =>
        some { d with writeUnion := writeUnion }
    | _ => none
| .dataCommit =>
    some { d with
      patches := pprCommit d.patches k (d.mem k)
        (g.writeMap k) }
| .groupCommit =>
    let (patches, mem) :=
      pprGroupCommit d.patches k (d.mem k)
    some { d with
      patches := patches
      mem := Function.update d.mem k mem }
| _ => some d

/- The data's part of a step. -/
def mergeReact
    (g : MergeGroup)
    (s : State (MemRange Bytes))
    (label : Proc × Act)
    (d : MergeData) :
    Option MergeData :=
  match label with
  | (.task k, .go) => mergeGo g k d (s.pc k)
  | (.task k, .fail) =>
      match checkForOverlap (freshCheck d.writeUnion)
          (g.readMap k) with
      | .ret (st, _ + 1) =>
          some { d with writeUnion := st.writeUnion }
      | _ => none
  | _ => some d

/- The group as a machine, from `bop_merge_init` on. -/
def mergeMachine (g : MergeGroup) :
    Machine (State (MemRange Bytes) × MergeData)
      (Proc × Act) :=
  (protocol g.protocolGroup).withData
    { mem := fun _ => g.memory
      writeUnion := initEmptyMap
      patches := g.patches }
    (mergeReact g)

/- What a task's step does to the data, by its point. -/
inductive MergeMove
    (g : MergeGroup)
    (k : Nat)
    (d : MergeData) :
    Pc (MemRange Bytes) → MergeData → Prop where
| region :
    MergeMove g k d .region
      { d with
        mem := Function.update d.mem k
          ((g.region k).body (d.mem k)) }
| checking
    {st : CheckState} :
    checkForOverlap (freshCheck d.writeUnion)
        (g.readMap k) = .ret (st, 0) →
      MergeMove g k d .checking
        { d with writeUnion := st.writeUnion }
| inserting
    {range : MemRange Bytes}
    {rest : List (MemRange Bytes)}
    {writeUnion : RangeMap Bytes} :
    unionAddRange (g.pprIndex + k) d.writeUnion range =
        .ret writeUnion →
      MergeMove g k d (.inserting (range :: rest))
        { d with writeUnion := writeUnion }
| dataCommit :
    MergeMove g k d .dataCommit
      { d with
        patches := pprCommit d.patches k (d.mem k)
          (g.writeMap k) }
| groupCommit :
    MergeMove g k d .groupCommit
      { d with
        patches := (pprGroupCommit d.patches k
          (d.mem k)).1
        mem := Function.update d.mem k
          (pprGroupCommit d.patches k (d.mem k)).2 }
| none
    {pc : Pc (MemRange Bytes)} :
    pc ≠ .region → pc ≠ .checking →
    (∀ range rest, pc ≠ .inserting (range :: rest)) →
    pc ≠ .dataCommit → pc ≠ .groupCommit →
      MergeMove g k d pc d

theorem mergeMove_of_mergeGo
    {g : MergeGroup}
    {k : Nat}
    {d d' : MergeData}
    {pc : Pc (MemRange Bytes)}
    (h : mergeGo g k d pc = some d') :
    MergeMove g k d pc d' := by
  unfold mergeGo at h
  split at h
  · simp only [Option.some.injEq] at h
    subst h
    exact .region
  · split at h
    · rename_i hCheck
      simp only [Option.some.injEq] at h
      subst h
      exact .checking hCheck
    · cases h
  · split at h
    · rename_i hAdd
      simp only [Option.some.injEq] at h
      subst h
      exact .inserting hAdd
    · cases h
  · simp only [Option.some.injEq] at h
    subst h
    exact .dataCommit
  · simp only [Option.some.injEq] at h
    subst h
    exact .groupCommit
  · rename_i hRegion hChecking hInserting hData hGroup
    simp only [Option.some.injEq] at h
    subst h
    exact .none hRegion hChecking hInserting hData hGroup

------------------------------------------------------------
-- The Invariant
------------------------------------------------------------

/- The task has not run its region. -/
def fresh {ρ : Type} : Pc ρ → Bool
| .unborn => true
| .gap => true
| .region => true
| .setSize _ next => fresh next
| .setAcquire _ next => fresh next
| .setWrite _ next => fresh next
| .setRelease next => fresh next
| _ => false

/- The task has run its region and is still there. -/
def ranRegion {ρ : Type} : Pc ρ → Bool
| .unborn => false
| .gap => false
| .region => false
| .abortSignal => false
| .exited _ => false
| .setSize _ next => ranRegion next
| .setAcquire _ next => ranRegion next
| .setWrite _ next => ranRegion next
| .setRelease next => ranRegion next
| _ => true

/- The task's check found no conflict. -/
def cleared {ρ : Type} : Pc ρ → Bool
| .taskCommit => false
| .waitPrior => false
| .checkStart => false
| .checking => false
| .checked false => false
| .setSize _ next => cleared next
| .setAcquire _ next => cleared next
| .setWrite _ next => cleared next
| .setRelease next => cleared next
| pc => ranRegion pc

/- The task reads nothing an earlier task writes. -/
def MergeGroup.Cleared (g : MergeGroup) (k : Nat) : Prop :=
  ∀ j, j < k →
    Disjoint
      (callBytes ((g.region k).readCalls g.memory))
      (callBytes ((g.region j).writeCalls g.memory))

/- The regions of the tasks below `n` as transactions. -/
def MergeGroup.transactions
    (g : MergeGroup)
    (n : Nat) :
    List (Transaction Nat UInt8) :=
  (List.range n).map (fun k => (g.region k).transaction)

namespace MergeGroup

variable {g : MergeGroup}

theorem transactions_succ
    (g : MergeGroup)
    (n : Nat) :
    g.transactions (n + 1) =
      g.transactions n ++ [(g.region n).transaction] := by
  simp [transactions, List.range_succ]

/- One region after the other, as transactions. -/
theorem sequential_eq_serial (n : Nat) :
    g.sequential n =
      Transaction.serial (g.transactions n) g.memory := by
  unfold sequential Transaction.serial transactions
  rw [List.foldl_map]
  rfl

end MergeGroup

/- What the data is, given what the tasks have done. -/
structure MergeInv
    (g : MergeGroup)
    (s : State (MemRange Bytes))
    (d : MergeData) : Prop where
  union : UnionOf [insertions s.log] d.writeUnion
  memFresh : ∀ k, fresh (s.pc k) = true →
    d.mem k = g.memory
  memRan : ∀ k, ranRegion (s.pc k) = true →
    Event.groupCommitted k ∉ s.log →
      d.mem k = (g.region k).body g.memory
  clearedAt : ∀ k, cleared (s.pc k) = true → g.Cleared k
  clearedLog : ∀ k, Event.dataCommitted k ∈ s.log ∨
    Event.groupCommitted k ∈ s.log → g.Cleared k
  patched : (∀ j, Event.groupCommitted j ∉ s.log) →
    ∀ k, Event.dataCommitted k ∈ s.log →
      d.patches k =
        createPatch ((g.region k).body g.memory)
          (g.writeMap k)
  unpatched : (∀ j, Event.groupCommitted j ∉ s.log) →
    ∀ k, Event.dataCommitted k ∉ s.log →
      d.patches k = g.patches k
  final : ∀ j, Event.groupCommitted j ∈ s.log →
    d.mem j =
      Transaction.replay g.memory (g.transactions j)
        ((g.region j).body g.memory)

/- The event changes what the invariant says. -/
def Event.onData {ρ : Type} : Event ρ → Bool
| .inserted _ _ => true
| .dataCommitted _ => true
| .groupCommitted _ => true
| _ => false

theorem insertions_off
    {events : List (Event (MemRange Bytes))}
    (h : ∀ e ∈ events, e.onData = false) :
    insertions events = [] := by
  apply List.filterMap_eq_nil_iff.mpr
  intro e he
  have hOff := h e he
  cases e <;> simp_all [Event.onData]

/- Steps that leave the data alone. -/
theorem mergeInv_keep
    {g : MergeGroup}
    {s s' : State (MemRange Bytes)}
    {d : MergeData}
    {events : List (Event (MemRange Bytes))}
    (hInv : MergeInv g s d)
    (hLog : s'.log = s.log ++ events)
    (hEvents : ∀ e ∈ events, e.onData = false)
    (hFresh : ∀ j, fresh (s'.pc j) = true →
      fresh (s.pc j) = true)
    (hRan : ∀ j, ranRegion (s'.pc j) = true →
      ranRegion (s.pc j) = true)
    (hCleared : ∀ j, cleared (s'.pc j) = true →
      cleared (s.pc j) = true) :
    MergeInv g s' d := by
  have hMem :
      ∀ e : Event (MemRange Bytes), e.onData = true →
        (e ∈ s'.log ↔ e ∈ s.log) := by
    intro e he
    rw [hLog, List.mem_append]
    constructor
    · intro h
      rcases h with hOld | hNew
      · exact hOld
      · simp [hEvents e hNew] at he
    · exact .inl
  have hData :
      ∀ k, (Event.dataCommitted k ∈ s'.log ↔
        Event.dataCommitted k ∈ s.log) :=
    fun k => hMem _ rfl
  have hGroup :
      ∀ k, (Event.groupCommitted k ∈ s'.log ↔
        Event.groupCommitted k ∈ s.log) :=
    fun k => hMem _ rfl
  refine ⟨?_, ?_, ?_, ?_, ?_, ?_, ?_, ?_⟩
  · rw [hLog, insertions_append, insertions_off hEvents,
      List.append_nil]
    exact hInv.union
  · intro k hk
    exact hInv.memFresh k (hFresh k hk)
  · intro k hk hNot
    rw [hGroup] at hNot
    exact hInv.memRan k (hRan k hk) hNot
  · intro k hk
    exact hInv.clearedAt k (hCleared k hk)
  · intro k hk
    rw [hData, hGroup] at hk
    exact hInv.clearedLog k hk
  · intro hNone k hk
    simp only [hGroup] at hNone
    rw [hData] at hk
    exact hInv.patched hNone k hk
  · intro hNone k hk
    simp only [hGroup] at hNone
    rw [hData] at hk
    exact hInv.unpatched hNone k hk
  · intro j hj
    rw [hGroup] at hj
    exact hInv.final j hj

/- Moves that leave the data alone. -/
theorem TaskMove.offData
    {ρ : Type}
    {cfg : Group ρ}
    {k psize : Nat}
    {pc : Pc ρ}
    {act : Act}
    {move : Move ρ}
    (h : TaskMove cfg k psize pc act move)
    (hFail : act ≠ .fail)
    (hPc : act = .go → pc ≠ .region ∧ pc ≠ .checking ∧
      (∀ range rest, pc ≠ .inserting (range :: rest)) ∧
      pc ≠ .dataCommit ∧ pc ≠ .groupCommit) :
    (∀ e ∈ move.2.2, Event.onData e = false) ∧
      (fresh move.1 = true → fresh pc = true) ∧
      (ranRegion move.1 = true → ranRegion pc = true) ∧
      (cleared move.1 = true → cleared pc = true) := by
  cases h <;>
    simp_all [Event.onData, fresh, ranRegion, cleared]

------------------------------------------------------------
-- Steps on the Data
------------------------------------------------------------

/- Task `k` moves to `pc` and records `events`. -/
structure MovesTo
    (s s' : State (MemRange Bytes))
    (k : Nat)
    (pc : Pc (MemRange Bytes))
    (events : List (Event (MemRange Bytes))) : Prop where
  self : s'.pc k = pc
  other : ∀ view : Pc (MemRange Bytes) → Bool,
    view .gap = view .unborn →
      ∀ j, j ≠ k → view (s'.pc j) = view (s.pc j)
  log : s'.log = s.log ++ events

/- A task's move of the protocol. -/
theorem movesTo_of_moved
    {cfg : Group (MemRange Bytes)}
    {s s' : State (MemRange Bytes)}
    {k : Nat}
    {act : Act}
    {move : Move (MemRange Bytes)}
    (hUnspawned : Unspawned s)
    (hMove : TaskMove cfg k s.partialSize (s.pc k) act move)
    (hPc : s'.pc =
      Function.update (pcAfter s.pc k move.2.1) k move.1)
    (hLog : s'.log = s.log ++ move.2.2) :
    MovesTo s s' k move.1 move.2.2 := by
  rcases pcMoved_of_move hUnspawned hMove hPc with
    ⟨hSelf, hOther⟩
  exact ⟨hSelf, hOther, hLog⟩

/- A signal ends the task. -/
theorem movesTo_of_ended
    {s s' : State (MemRange Bytes)}
    {k : Nat}
    {why : Why}
    (hPc : s'.pc = Function.update s.pc k (.exited why))
    (hLog : s'.log = s.log) :
    MovesTo s s' k (.exited why) [] := by
  refine ⟨?_, ?_, by simpa using hLog⟩
  · rw [hPc, Function.update_self]
  · intro view _ j hj
    rw [hPc, Function.update_of_ne hj]

section Steps

variable {g : MergeGroup}
variable {s s' : State (MemRange Bytes)}
variable {d : MergeData}
variable {k : Nat}

/- The task runs its region. -/
theorem mergeInv_region
    (hInv : MergeInv g s d)
    (hPc : s.pc k = .region)
    (hMoves : MovesTo s s' k .taskCommit [])
    (hNot : Event.groupCommitted k ∉ s.log) :
    MergeInv g s' { d with
      mem := Function.update d.mem k
        ((g.region k).body (d.mem k)) } := by
  have hLog : s'.log = s.log := by
    simpa using hMoves.log
  have hStart : d.mem k = g.memory :=
    hInv.memFresh k (by rw [hPc]; rfl)
  refine ⟨?_, ?_, ?_, ?_, ?_, ?_, ?_, ?_⟩
  · rw [hLog]
    exact hInv.union
  · intro j hj
    by_cases hSelf : j = k
    · subst hSelf
      simp [hMoves.self, fresh] at hj
    · rw [hMoves.other fresh rfl j hSelf] at hj
      change Function.update d.mem k _ j = _
      rw [Function.update_of_ne hSelf]
      exact hInv.memFresh j hj
  · intro j hj hGroup
    by_cases hSelf : j = k
    · subst hSelf
      change Function.update d.mem j _ j = _
      rw [Function.update_self, hStart]
    · rw [hMoves.other ranRegion rfl j hSelf] at hj
      rw [hLog] at hGroup
      change Function.update d.mem k _ j = _
      rw [Function.update_of_ne hSelf]
      exact hInv.memRan j hj hGroup
  · intro j hj
    by_cases hSelf : j = k
    · subst hSelf
      simp [hMoves.self, cleared] at hj
    · rw [hMoves.other cleared rfl j hSelf] at hj
      exact hInv.clearedAt j hj
  · rw [hLog]
    exact hInv.clearedLog
  · rw [hLog]
    exact hInv.patched
  · rw [hLog]
    exact hInv.unpatched
  · intro j hj
    rw [hLog] at hj
    have hSelf : j ≠ k := by
      intro hEq
      subst hEq
      exact hNot hj
    change Function.update d.mem k _ j = _
    rw [Function.update_of_ne hSelf]
    exact hInv.final j hj

/- The check of the task passes or inserts a range. -/
theorem mergeInv_check
    {pc : Pc (MemRange Bytes)}
    {events : List (Event (MemRange Bytes))}
    {writeUnion : RangeMap Bytes}
    (hInv : MergeInv g s d)
    (hRan : ranRegion (s.pc k) = true)
    (hFresh : fresh pc = false)
    (hMoves : MovesTo s s' k pc events)
    (hEvents : ∀ e ∈ events, ∃ r, e = .inserted k r)
    (hUnion : UnionOf [insertions s.log ++
      insertions events] writeUnion)
    (hCleared : g.Cleared k) :
    MergeInv g s' { d with writeUnion := writeUnion } := by
  have hMem :
      ∀ e, (∀ r, e ≠ Event.inserted k r) →
        (e ∈ s'.log ↔ e ∈ s.log) := by
    intro e he
    rw [hMoves.log, List.mem_append]
    constructor
    · intro h
      rcases h with hOld | hNew
      · exact hOld
      · rcases hEvents e hNew with ⟨r, hr⟩
        exact absurd hr (he r)
    · exact .inl
  have hData :
      ∀ j, (Event.dataCommitted j ∈ s'.log ↔
        Event.dataCommitted j ∈ s.log) :=
    fun j => hMem _ (by simp)
  have hGroup :
      ∀ j, (Event.groupCommitted j ∈ s'.log ↔
        Event.groupCommitted j ∈ s.log) :=
    fun j => hMem _ (by simp)
  refine ⟨?_, ?_, ?_, ?_, ?_, ?_, ?_, ?_⟩
  · rw [hMoves.log, insertions_append]
    exact hUnion
  · intro j hj
    by_cases hSelf : j = k
    · subst hSelf
      rw [hMoves.self, hFresh] at hj
      cases hj
    · rw [hMoves.other fresh rfl j hSelf] at hj
      exact hInv.memFresh j hj
  · intro j hj hNot
    rw [hGroup] at hNot
    by_cases hSelf : j = k
    · subst hSelf
      exact hInv.memRan j hRan hNot
    · rw [hMoves.other ranRegion rfl j hSelf] at hj
      exact hInv.memRan j hj hNot
  · intro j hj
    by_cases hSelf : j = k
    · rw [hSelf]
      exact hCleared
    · rw [hMoves.other Cbop.cleared rfl j hSelf] at hj
      exact hInv.clearedAt j hj
  · intro j hj
    rw [hData, hGroup] at hj
    exact hInv.clearedLog j hj
  · intro hNone j hj
    simp only [hGroup] at hNone
    rw [hData] at hj
    exact hInv.patched hNone j hj
  · intro hNone j hj
    simp only [hGroup] at hNone
    rw [hData] at hj
    exact hInv.unpatched hNone j hj
  · intro j hj
    rw [hGroup] at hj
    exact hInv.final j hj

/- The task publishes its patch. -/
theorem mergeInv_dataCommit
    (hInv : MergeInv g s d)
    (hPc : s.pc k = .dataCommit)
    (hMoves : MovesTo s s' k .signalCommit
      [.dataCommitted k])
    (hNot : Event.groupCommitted k ∉ s.log) :
    MergeInv g s' { d with
      patches := pprCommit d.patches k (d.mem k)
        (g.writeMap k) } := by
  have hGroup :
      ∀ j, (Event.groupCommitted j ∈ s'.log ↔
        Event.groupCommitted j ∈ s.log) := by
    intro j
    simp [hMoves.log]
  have hData :
      ∀ j, (Event.dataCommitted j ∈ s'.log ↔
        Event.dataCommitted j ∈ s.log ∨ j = k) := by
    intro j
    simp [hMoves.log]
  have hRan : d.mem k = (g.region k).body g.memory :=
    hInv.memRan k (by rw [hPc]; rfl) hNot
  have hClear : g.Cleared k :=
    hInv.clearedAt k (by rw [hPc]; rfl)
  refine ⟨?_, ?_, ?_, ?_, ?_, ?_, ?_, ?_⟩
  · rw [hMoves.log, insertions_append]
    simpa [insertions] using hInv.union
  · intro j hj
    by_cases hSelf : j = k
    · subst hSelf
      simp [hMoves.self, fresh] at hj
    · rw [hMoves.other fresh rfl j hSelf] at hj
      exact hInv.memFresh j hj
  · intro j hj hNone
    rw [hGroup] at hNone
    by_cases hSelf : j = k
    · subst hSelf
      exact hRan
    · rw [hMoves.other ranRegion rfl j hSelf] at hj
      exact hInv.memRan j hj hNone
  · intro j hj
    by_cases hSelf : j = k
    · rw [hSelf]
      exact hClear
    · rw [hMoves.other cleared rfl j hSelf] at hj
      exact hInv.clearedAt j hj
  · intro j hj
    rw [hData, hGroup] at hj
    rcases hj with (hj | rfl) | hj
    · exact hInv.clearedLog j (.inl hj)
    · exact hClear
    · exact hInv.clearedLog j (.inr hj)
  · intro hNone j hj
    simp only [hGroup] at hNone
    rw [hData] at hj
    change Function.update d.patches k _ j = _
    by_cases hSelf : j = k
    · subst hSelf
      rw [Function.update_self, hRan]
    · rw [Function.update_of_ne hSelf]
      apply hInv.patched hNone j
      exact hj.resolve_right hSelf
  · intro hNone j hj
    simp only [hGroup] at hNone
    rw [hData] at hj
    change Function.update d.patches k _ j = _
    rw [Function.update_of_ne (fun h => hj (.inr h))]
    exact hInv.unpatched hNone j (fun h => hj (.inl h))
  · intro j hj
    rw [hGroup] at hj
    exact hInv.final j hj

end Steps

end Cbop
