import Cbop.Group.Ordered

/-
  What a group with an ordered region commits.

  Write maps are empty after the posts, so no check finds a
  conflict and no patch carries a byte: the committed memory
  is the last task's own. It has a byte's sequential value
  if one of the last two tasks wrote the byte, or if the
  byte ends with the value it had before the group.

  Main declarations:
    * `OrderedInv`, `orderedInv_of_reachable`
    * `ordered_commit_iff`
-/

namespace Cbop

------------------------------------------------------------
-- The Invariant
------------------------------------------------------------

/- The task has nothing to insert into the write union. -/
def insertsNone : Pc (MemRange Bytes) → Bool
| .inserting (_ :: _) => false
| _ => true

/- What holds of the data, given what the tasks have done. -/
structure OrderedInv
    (g : OrderedGroup)
    (s : State (MemRange Bytes))
    (d : OrderedData) : Prop where
  tasks : TasksInv g d
  ran : ∀ k, ranRegion (s.pc k) = true → d.stage k = .left
  inserts : ∀ k, insertsNone (s.pc k) = true
  committed : ∀ k, Event.groupCommitted k ∈ s.log →
    d.stage k = .left
  patches : ∀ k, Event.dataCommitted k ∈ s.log ∨
    k + 1 = g.size → (d.patches k).ranges = []

section Steps

variable {g : OrderedGroup}
variable {s s' : State (MemRange Bytes)}
variable {d d' : OrderedData}
variable {k : Nat}

/- Task `k` moves; what its move has to keep. -/
theorem orderedInv_moves
    {pc : Pc (MemRange Bytes)}
    {events : List (Event (MemRange Bytes))}
    (hInv : OrderedInv g s d)
    (hMoves : MovesTo s s' k pc events)
    (hTasks : TasksInv g d')
    (hStages : ∀ j, d.stage j = .left →
      d'.stage j = .left)
    (hRan : ranRegion pc = true → d'.stage k = .left)
    (hInserts : insertsNone pc = true)
    (hGroup : ∀ j, Event.groupCommitted j ∈ events →
      d'.stage j = .left)
    (hPatches : ∀ j, (Event.dataCommitted j ∈ s.log ∨
        Event.dataCommitted j ∈ events) ∨ j + 1 = g.size →
      (d'.patches j).ranges = []) :
    OrderedInv g s' d' := by
  refine ⟨hTasks, ?_, ?_, ?_, ?_⟩
  · intro j hj
    by_cases hSelf : j = k
    · subst hSelf
      rw [hMoves.self] at hj
      exact hRan hj
    · rw [hMoves.other ranRegion rfl j hSelf] at hj
      exact hStages j (hInv.ran j hj)
  · intro j
    by_cases hSelf : j = k
    · rw [hSelf, hMoves.self]
      exact hInserts
    · rw [hMoves.other insertsNone rfl j hSelf]
      exact hInv.inserts j
  · intro j hj
    rw [hMoves.log, List.mem_append] at hj
    rcases hj with hj | hj
    · exact hStages j (hInv.committed j hj)
    · exact hGroup j hj
  · intro j hj
    rw [hMoves.log, List.mem_append] at hj
    exact hPatches j hj

/- Task `k` moves without touching the data. -/
theorem orderedInv_off
    {pc : Pc (MemRange Bytes)}
    {events : List (Event (MemRange Bytes))}
    (hInv : OrderedInv g s d)
    (hMoves : MovesTo s s' k pc events)
    (hEvents : ∀ e ∈ events, Event.onData e = false)
    (hRan : ranRegion pc = true → d.stage k = .left)
    (hInserts : insertsNone pc = true) :
    OrderedInv g s' d := by
  refine orderedInv_moves hInv hMoves hInv.tasks
    (fun _ h => h) hRan hInserts ?_ ?_
  · intro j hj
    have hOff := hEvents _ hj
    simp [Event.onData] at hOff
  · intro j hj
    apply hInv.patches j
    rcases hj with (hj | hj) | hj
    · exact .inl hj
    · have hOff := hEvents _ hj
      simp [Event.onData] at hOff
    · exact .inr hj

/- A step of a task inside its region. -/
theorem orderedWork_spec
    (hIds : g.IdsFit)
    (hRecords : g.RecordsWrites g.calls)
    (hInv : TasksInv g d)
    (hk : k < g.size)
    (h : orderedWork g k d = some d') :
    TasksInv g d' ∧ d'.patches = d.patches ∧
      ∀ j, d.stage j = .left → d'.stage j = .left := by
  have hKeeps :
      ∀ t stage j, d.stage k ≠ .left → d.stage j = .left →
        (d.setTask k t stage).stage j = .left := by
    intro t stage j hNot hLeft
    have hSelf : j ≠ k := by
      intro hEq
      subst hEq
      exact hNot hLeft
    simpa [OrderedData.setTask, hSelf] using hLeft
  unfold orderedWork at h
  split at h
  · rename_i hStage
    split at h
    · rename_i t hBegin
      simp only [Option.some.injEq] at h
      subst h
      exact ⟨tasksInv_begin hIds hInv hk hStage hBegin, rfl,
        fun j => hKeeps t _ j (by simp [hStage])⟩
    · cases h
  · rename_i hStage
    simp only [Option.some.injEq] at h
    subst h
    exact ⟨tasksInv_run hInv hk hStage, rfl,
      fun j => hKeeps _ _ j (by simp [hStage])⟩
  · rename_i hStage
    split at h
    · rename_i board t hEnd
      simp only [Option.some.injEq] at h
      subst h
      exact ⟨tasksInv_end hIds hRecords hInv hk hStage hEnd,
        rfl, fun j => hKeeps t _ j (by simp [hStage])⟩
    · cases h
  · simp only [Option.some.injEq] at h
    subst h
    exact ⟨hInv, rfl, fun _ h => h⟩

/- Replacing a task's data by what it was. -/
theorem tasksInv_same
    {t : TaskData}
    {patches : Nat → RangeMap Bytes}
    (hInv : TasksInv g d)
    (hSame : t = d.task k) :
    TasksInv g { d with
      patches := patches
      task := Function.update d.task k t } := by
  subst hSame
  rw [Function.update_eq_self]
  exact ⟨hInv.task, hInv.board, hInv.free, hInv.posted,
    hInv.union⟩

/- The check of a task compares with an empty union. -/
theorem afterCheck_eq
    {st : CheckState}
    {access : RangeMap Bytes}
    {conflict : Nat}
    (hUnion : d.writeUnion.size = 0)
    (h : checkForOverlap (d.checkState k) access =
      .ret (st, conflict)) :
    d.afterCheck k st = d := by
  unfold checkForOverlap at h
  have hEmpty : (d.checkState k).writeUnion.size = 0 :=
    hUnion
  rw [if_pos hEmpty, Outcome.pure_eq_ret_iff,
    Prod.mk.injEq] at h
  rcases h with ⟨rfl, -⟩
  simp [OrderedData.afterCheck, OrderedData.checkState]

/- Empty patches leave the memory as it is. -/
theorem pprGroupCommit_of_empty
    {patches : Nat → RangeMap Bytes}
    (mem : Memory)
    (h : ∀ j, j ≤ k → (patches j).ranges = []) :
    (pprGroupCommit patches k mem).2 = mem := by
  have hAll :
      ∀ n, n ≤ k + 1 →
        (List.range n).foldl
          (fun mem ppr => applyPatch mem (patches ppr))
          mem = mem := by
    intro n hn
    induction n with
    | zero => rfl
    | succ n ih =>
        rw [List.range_succ, List.foldl_append,
          ih (by omega)]
        exact applyPatch_of_empty mem (h n (by omega))
  exact hAll (k + 1) (Nat.le_refl _)

theorem TaskMove.insertsNone
    {cfg : Group (MemRange Bytes)}
    {psize : Nat}
    {pc : Pc (MemRange Bytes)}
    {act : Act}
    {move : Move (MemRange Bytes)}
    (h : TaskMove cfg k psize pc act move)
    (hCalm : Cbop.calm pc = true)
    (hChecking : pc = .checking → cfg.writes k = [])
    (hInserts : Cbop.insertsNone pc = true) :
    Cbop.insertsNone move.1 = true := by
  cases h <;> simp_all [Cbop.insertsNone, Cbop.calm]

/- The data commit of a task with an empty write map. -/
theorem orderedInv_dataCommit
    {patches : Nat → RangeMap Bytes}
    (hInv : OrderedInv g s d)
    (hMoves : MovesTo s s' k .signalCommit
      [.dataCommitted k])
    (hk : k < g.size)
    (hLeft : d.stage k = .left)
    (h : postwaitCommit k (g.pprIndex + k)
      (pprCommit d.patches k (d.task k).mem
        (d.task k).writeMap)
      (d.task k).receivedNUsed = .ret patches) :
    OrderedInv g s' { d with patches := patches } := by
  have hTask := hInv.tasks.task k hk
  rcases hTask.left hLeft with ⟨-, hWrite⟩
  unfold postwaitCommit at h
  rw [if_pos hTask.used, Outcome.ret.injEq] at h
  subst h
  refine orderedInv_moves hInv hMoves ?_ (fun _ h => h)
    (fun _ => hLeft) rfl (by simp) ?_
  · exact ⟨hInv.tasks.task, hInv.tasks.board,
      hInv.tasks.free, hInv.tasks.posted, hInv.tasks.union⟩
  · intro j hj
    change (Function.update d.patches k _ j).ranges = []
    by_cases hSelf : j = k
    · rw [hSelf, Function.update_self,
        createPatch_eq_nil_iff]
      exact hWrite
    · rw [Function.update_of_ne hSelf]
      apply hInv.patches j
      simpa [hSelf] using hj

/- The group commit applies empty patches. -/
theorem orderedInv_groupCommit
    (hInv : OrderedInv g s d)
    (hMoves : MovesTo s s' k .groupSignal
      [.groupCommitted k])
    (hLeft : d.stage k = .left)
    (hLast : k + 1 = g.size)
    (hEarlier : ∀ j, j < k →
      Event.dataCommitted j ∈ s.log) :
    OrderedInv g s' { d with
      patches :=
        (pprGroupCommit d.patches k (d.task k).mem).1
      task := Function.update d.task k
        { d.task k with
          mem := (pprGroupCommit d.patches k
            (d.task k).mem).2 } } := by
  have hEmpty : ∀ j, j ≤ k → (d.patches j).ranges = [] := by
    intro j hj
    apply hInv.patches j
    rcases Nat.lt_or_eq_of_le hj with hLt | rfl
    · exact .inl (hEarlier j hLt)
    · exact .inr hLast
  rw [pprGroupCommit_of_empty _ hEmpty]
  refine orderedInv_moves hInv hMoves
    (tasksInv_same hInv.tasks rfl) (fun _ h => h)
    (fun _ => hLeft) rfl ?_ ?_
  · intro j hj
    have hSelf : j = k := by
      simpa using hj
    rw [hSelf]
    exact hLeft
  · intro j hj
    change (if j ≤ k then mapClear (d.patches j)
      else d.patches j).ranges = []
    split
    · rfl
    · apply hInv.patches j
      simpa using hj

/- The move of a task, and what it does to the data. -/
theorem orderedInv_go
    {move : Move (MemRange Bytes)}
    (hReach : (protocol g.control).Reachable NoAborts s)
    (hk : k < g.size)
    (hInv : OrderedInv g s d)
    (hMove : TaskMove g.control k s.partialSize (s.pc k) .go
      move)
    (hReact : orderedGo g k d (s.pc k) = some d')
    (hMoves : MovesTo s s' k move.1 move.2.2) :
    OrderedInv g s' d' := by
  rcases calmInv_of_reachable hReach with ⟨hCalm, -⟩
  have hCalmAt := hCalm.calm k
  have hInserts := hInv.inserts k
  have hRan := hInv.ran k
  generalize hAt : s.pc k = pc at hMove hReact hCalmAt
  rw [hAt] at hInserts hRan
  unfold orderedGo at hReact
  split at hReact
  · split at hReact
    · rename_i hLeft
      simp only [Option.some.injEq] at hReact
      subst hReact
      cases hMove with
      | endMain =>
          exact orderedInv_off hInv hMoves (by simp)
            (fun _ => hLeft) rfl
      | endSpec =>
          exact orderedInv_off hInv hMoves (by simp)
            (fun _ => hLeft) rfl
    · cases hReact
  · have hLeft := hRan rfl
    rcases (hInv.tasks.task k hk).left hLeft with
      ⟨-, hWrite⟩
    split at hReact
    · rename_i hWrites
      split at hReact
      · rename_i st hCheck
        simp only [Option.some.injEq] at hReact
        rw [afterCheck_eq hInv.tasks.union hCheck] at hReact
        subst hReact
        rw [hWrite] at hWrites
        cases hMove with
        | checking =>
            refine orderedInv_off hInv hMoves (by simp)
              (fun _ => hLeft) ?_
            change insertsNone (.inserting (g.writes k)) = true
            rw [← hWrites]
            rfl
      · cases hReact
    · cases hReact
  · simp [insertsNone] at hInserts
  · split at hReact
    · rename_i patches hCommit
      simp only [Option.some.injEq] at hReact
      subst hReact
      cases hMove with
      | dataCommit =>
          exact orderedInv_dataCommit hInv hMoves hk
            (hRan rfl) hCommit
    · cases hReact
  · simp only [Option.some.injEq] at hReact
    subst hReact
    rcases calm_commit hReach hAt with
      ⟨hLast, hEarlier, -⟩
    cases hMove with
    | groupCommit =>
        exact orderedInv_groupCommit hInv hMoves (hRan rfl)
          hLast hEarlier
  · rename_i hRegion hChecking hInserting hData hGroup
    simp only [Option.some.injEq] at hReact
    subst hReact
    rcases hMove.offData (by simp) (fun _ =>
        ⟨hRegion, hChecking, hInserting, hData, hGroup⟩) with
      ⟨hEvents, -, hRanBefore, -⟩
    apply orderedInv_off hInv hMoves hEvents
    · intro hRanNow
      exact hRan (hRanBefore hRanNow)
    · exact hMove.insertsNone hCalmAt
        (fun h => absurd h hChecking) hInserts

/- A step of the program's own code. -/
theorem orderedInv_work
    {move : Move (MemRange Bytes)}
    (hIds : g.IdsFit)
    (hRecords : g.RecordsWrites g.calls)
    (hk : k < g.size)
    (hInv : OrderedInv g s d)
    (hMove : TaskMove g.control k s.partialSize (s.pc k)
      .work move)
    (hReact : orderedReact g s (.task k, .work) d = some d')
    (hMoves : MovesTo s s' k move.1 move.2.2) :
    OrderedInv g s' d' := by
  have hStay : move = (s.pc k, .quiet, []) := by
    generalize s.pc k = pc at hMove
    cases hMove
    rfl
  rw [hStay] at hMoves
  unfold orderedReact at hReact
  dsimp only at hReact
  split at hReact
  · rename_i hAt
    rcases orderedWork_spec hIds hRecords hInv.tasks hk
        hReact with
      ⟨hTasks, hPatches, hStages⟩
    refine orderedInv_moves hInv hMoves hTasks hStages ?_
      (hInv.inserts k) (by simp) ?_
    · intro hRan
      simp [hAt, ranRegion] at hRan
    · intro j hj
      rw [hPatches]
      exact hInv.patches j (by simpa using hj)
  · simp only [Option.some.injEq] at hReact
    subst hReact
    exact orderedInv_off hInv hMoves (by simp)
      (hInv.ran k) (hInv.inserts k)

/- Signals and the understudy leave the data alone. -/
theorem orderedReact_of_signal
    {label : Proc × Act}
    (h : IsSignal label) :
    orderedReact g s label d = some d := by
  rcases label with ⟨proc, act⟩
  cases proc with
  | undy => rfl
  | task k =>
      rcases h k act rfl with rfl | rfl <;> rfl

/- One step of the group and its data. -/
theorem orderedInv_step
    {label : Proc × Act}
    (hIds : g.IdsFit)
    (hRecords : g.RecordsWrites g.calls)
    (hSize : 1 ≤ g.size)
    (hReach : (protocol g.control).Reachable NoAborts s)
    (hInv : OrderedInv g s d)
    (hOk : NoAborts s label)
    (hStep : step g.control s label = some s')
    (hReact : orderedReact g s label d = some d') :
    OrderedInv g s' d' := by
  rcases calmInv_of_reachable hReach with ⟨hCalm, -⟩
  have hUnspawned := unspawned_of_reachable hReach
  cases coreStep_of_step hStep with
  | moved k act move hLabel hMove hFree hPc hHeld hPsize
      hLog =>
      subst hLabel
      have hMoves : MovesTo s s' k move.1 move.2.2 :=
        movesTo_of_moved hUnspawned hMove hPc hLog
      have hk : k < g.size := by
        have hBorn := hCalm.born k hMove.ne_unborn
        change k = 0 ∨ k < g.size at hBorn
        omega
      by_cases hGo : act = .go
      · subst hGo
        exact orderedInv_go hReach hk hInv hMove hReact
          hMoves
      by_cases hWork : act = .work
      · subst hWork
        exact orderedInv_work hIds hRecords hk hInv hMove
          hReact hMoves
      · have hSame : d' = d := by
          have hActs := hOk
          cases act <;> simp_all [NoAborts, orderedReact]
        rw [hSame]
        rcases hMove.offData hOk.1
            (fun h => absurd h hGo) with
          ⟨hEvents, -, hRan, -⟩
        apply orderedInv_off hInv hMoves hEvents
        · intro hRanNow
          exact hInv.ran k (hRan hRanNow)
        · -- only `die` is left, and it ends the task
          have hActs := hOk
          generalize s.pc k = pc at hMove
          cases hMove <;> simp_all [NoAborts, insertsNone]
  | ended k why hLabel hAlive hPc hHeld hPsize hLog =>
      rw [orderedReact_of_signal hLabel] at hReact
      simp only [Option.some.injEq] at hReact
      subst hReact
      exact orderedInv_off hInv (movesTo_of_ended hPc hLog)
        (by simp) (by simp [ranRegion]) rfl
  | aside hLabel hPc hHeld hPsize hLog =>
      rw [orderedReact_of_signal hLabel] at hReact
      simp only [Option.some.injEq] at hReact
      subst hReact
      have hMem :
          ∀ e : Event (MemRange Bytes), e.onData = true →
            e ∈ s'.log → e ∈ s.log := by
        intro e he hMem
        refine (mem_log_of_aside hLog ?_).mp hMem
        intro hUndy
        subst hUndy
        cases he
      refine ⟨hInv.tasks, ?_, ?_, ?_, ?_⟩
      · rw [hPc]
        exact hInv.ran
      · rw [hPc]
        exact hInv.inserts
      · intro j hj
        exact hInv.committed j (hMem _ rfl hj)
      · intro j hj
        apply hInv.patches j
        rcases hj with hj | hj
        · exact .inl (hMem _ rfl hj)
        · exact .inr hj

/- What holds along a run without aborts. -/
theorem orderedInv_of_reachable
    (hIds : g.IdsFit)
    (hRecords : g.RecordsWrites g.calls)
    (hSize : 1 ≤ g.size)
    (hSlot : (g.patches (g.size - 1)).ranges = [])
    {state : State (MemRange Bytes) × OrderedData}
    (h : (orderedMachine g).Reachable
      (fun state label => NoAborts state.1 label) state) :
    OrderedInv g state.1 state.2 := by
  refine h.invariant
    (fun state => OrderedInv g state.1 state.2) ?_ ?_
  · change OrderedInv g (State.init g.control) _
    have hPc :
        ∀ k, (State.init g.control).pc k = .gap ∨
          (State.init g.control).pc k = .unborn := by
      intro k
      by_cases hk : k = 0 <;> simp [State.init, hk]
    refine ⟨⟨?_, rfl, ?_, ?_, rfl⟩, ?_, ?_, ?_, ?_⟩
    · intro k _
      change TaskInv g k .before (pprTaskInit g.memory)
      exact ⟨rfl, fun _ => rfl, by simp, by simp, by simp,
        by simp⟩
    · intro k _ _
      exact ⟨.inl rfl, rfl, rfl⟩
    · intro k _ hLeft
      cases hLeft
    · intro k hk
      rcases hPc k with hEq | hEq <;>
        simp [hEq, ranRegion] at hk
    · intro k
      rcases hPc k with hEq | hEq <;> rw [hEq] <;> rfl
    · simp [State.init]
    · intro k hk
      have hIndex : k = g.size - 1 := by
        simp [State.init] at hk
        omega
      rw [hIndex]
      exact hSlot
  · intro state label state' hReach hInv hOk hStep
    rcases Machine.withData_step_iff.mp hStep with
      ⟨hControl, hReact⟩
    exact orderedInv_step hIds hRecords hSize
      hReach.control hInv hOk hControl hReact

end Steps

------------------------------------------------------------
-- Commit and Sequential Execution
------------------------------------------------------------

namespace OrderedGroup

/- The bytes task `k` writes in the sequential execution. -/
def writtenBy
    (g : OrderedGroup)
    (k : Nat) : Set Nat :=
  callBytes ((g.region k).writeCalls (g.sequential k))

/- Some task of the group writes the byte. -/
def Written
    (g : OrderedGroup)
    (a : Nat) : Prop :=
  ∃ k, k < g.size ∧ a ∈ g.writtenBy k

/-
  A task reads only what the task right before it writes,
  and bytes that still have the value they had before the
  group.
-/
def ReadsHandedOn (g : OrderedGroup) : Prop :=
  ∀ k, k < g.size →
    ∀ a ∈ callBytes
        ((g.region k).readCalls (g.sequential k)),
      (0 < k ∧ a ∈ g.writtenBy (k - 1)) ∨
        g.sequential k a = g.memory a

/-
  One of the last two tasks writes the byte, or it ends with
  the value it had before the group.
-/
def HandedOn
    (g : OrderedGroup)
    (a : Nat) : Prop :=
  a ∈ g.writtenBy (g.size - 1) ∨
    a ∈ g.writtenBy (g.size - 2) ∨
    g.sequential g.size a = g.memory a

variable {g : OrderedGroup}

theorem lastWrites_transactions
    (n : Nat) :
    Transaction.lastWrites g.memory (g.transactions n) =
      { a | 0 < n ∧ a ∈ g.writtenBy (n - 1) } := by
  cases n with
  | zero =>
      ext a
      simp [MergeGroup.transactions,
        Transaction.lastWrites_nil]
  | succ n =>
      rw [g.transactions_succ, Transaction.lastWrites_concat,
        ← MergeGroup.sequential_eq_serial]
      ext a
      simp [writtenBy, Region.transaction]

/- A prefix of the transactions is that of some task. -/
theorem transactions_split
    {n : Nat}
    {before after : List (Transaction Nat UInt8)}
    {t : Transaction Nat UInt8}
    (h : g.transactions n = before ++ t :: after) :
    ∃ k, k < n ∧ before = g.transactions k ∧
      t = (g.region k).transaction := by
  have hLength : before.length < n := by
    have hEq := congrArg List.length h
    simp [MergeGroup.transactions] at hEq
    omega
  have hBefore :
      (g.transactions n).take before.length = before := by
    rw [h]
    simp
  have hAt :
      (g.transactions n)[before.length]? = some t := by
    rw [h]
    simp
  refine ⟨before.length, hLength, ?_, ?_⟩
  · conv_lhs => rw [← hBefore]
    unfold MergeGroup.transactions
    rw [← List.map_take, List.take_range,
      Nat.min_eq_left (by omega)]
  · have hRange :
        (g.transactions n)[before.length]? =
          some (g.region before.length).transaction := by
      simp [MergeGroup.transactions, hLength]
    rw [hRange] at hAt
    simpa using hAt.symm

theorem ReadsHandedOn.relay
    (h : g.ReadsHandedOn) :
    Transaction.ReadsHandedOn g.memory
      (g.transactions g.size) := by
  intro before t after hSplit a ha
  rcases transactions_split hSplit with ⟨k, hk, rfl, rfl⟩
  rw [lastWrites_transactions,
    ← MergeGroup.sequential_eq_serial]
  rw [← MergeGroup.sequential_eq_serial] at ha
  exact h k hk a ha

/- Up to any task of the group. -/
theorem ReadsHandedOn.upTo
    (h : g.ReadsHandedOn)
    {k : Nat}
    (hk : k < g.size) :
    Transaction.ReadsHandedOn g.memory
      (g.transactions k ++ [(g.region k).transaction]) := by
  have hAll := h.relay
  have hSplit :
      g.transactions g.size =
        g.transactions (k + 1) ++
          (g.transactions g.size).drop (k + 1) := by
    conv_lhs => rw [← List.take_append_drop (k + 1)
      (g.transactions g.size)]
    unfold MergeGroup.transactions
    rw [← List.map_take, List.take_range,
      Nat.min_eq_left (by omega)]
  rw [hSplit, g.transactions_succ] at hAll
  exact hAll.of_append

/- A task of the relay writes what it writes sequentially. -/
theorem ReadsHandedOn.calls_eq
    (h : g.ReadsHandedOn)
    {k : Nat}
    (hk : k < g.size) :
    g.calls k =
      (g.region k).writeCalls (g.sequential k) := by
  have hReads := Transaction.reads_relay (h.upTo hk)
  rw [← MergeGroup.sequential_eq_serial] at hReads
  exact ((g.region k).determined (g.sequential k)
    (g.start k) hReads).1

end OrderedGroup

theorem mem_callBytes_singleton
    {addr a : Nat} :
    a ∈ callBytes [(addr, 1)] ↔ a = addr := by
  constructor
  · intro h
    rcases h with ⟨c, hc, hLow, hHigh⟩
    rw [List.mem_singleton] at hc
    subst hc
    change addr ≤ a at hLow
    change a < addr + 1 at hHigh
    omega
  · intro hEq
    subst hEq
    exact ⟨(a, 1), List.mem_singleton_self _, Nat.le_refl a,
      Nat.lt_succ_self a⟩

/- The region that adds one to the byte at an address. -/
def countRegion (addr : Nat) : Region where
  body := fun m => Function.update m addr (m addr + 1)
  readCalls := fun _ => [(addr, 1)]
  writeCalls := fun _ => [(addr, 1)]
  frame := by
    intro m a ha
    rw [mem_callBytes_singleton] at ha
    exact Function.update_of_ne ha _ _
  determined := by
    intro m m' hEq
    refine ⟨rfl, ?_⟩
    intro a ha
    have hAddr : m addr = m' addr :=
      hEq (mem_callBytes_singleton.mpr rfl)
    rw [mem_callBytes_singleton] at ha
    rw [ha, Function.update_self, Function.update_self,
      hAddr]

/- Three tasks that count, task `k` at `addr k`. -/
def countGroup (addr : Nat → Nat) : OrderedGroup where
  size := 3
  region := fun k => countRegion (addr k)
  memory := fun _ => 0
  pprIndex := 1
  patches := fun _ => initEmptyMap
  atomicSet := false
  mainLeads := true
  regionId := 1
  boardSize := 0
  writes := fun _ => []

theorem countGroup_idsFit
    (addr : Nat → Nat) :
    (countGroup addr).IdsFit := by
  refine ⟨Nat.one_pos, ?_⟩
  change 1 * 3 + 1 + 3 < 2 ^ 64
  decide

theorem countGroup_recordsWrites
    {addr : Nat → Nat}
    (hPos : ∀ k, k < 3 → 0 < addr k)
    (hFits : ∀ k, k < 3 → addr k + 1 < 2 ^ 64) :
    (countGroup addr).RecordsWrites (fun k =>
      ((countGroup addr).region k).writeCalls
        ((countGroup addr).sequential k)) := by
  refine ⟨?_, ?_, ?_⟩
  · intro k hk c hc
    simp only [countGroup, countRegion,
      List.mem_singleton] at hc
    subst hc
    exact ⟨hPos k hk, by simp, hFits k hk⟩
  · intro k _
    refine ⟨?_, trivial⟩
    simp [RootHolds, initEmptyMap, RangeMap.ranges]
  · intro k _ r hr
    have hSingle :
        (recordAll [(addr k, 1)]).ranges =
          [newNode (addr k) 1 none] := rfl
    change r ∈ (recordAll [(addr k, 1)]).ranges at hr
    rw [hSingle, List.mem_singleton] at hr
    subst hr
    change 1 < 2 ^ 32
    decide

/- The ordered region of a task, step by step. -/
def orderedSteps (k : Nat) : List (Proc × Act) :=
  (.task k, .go) :: List.replicate 3 (.task k, .work)

/- The three tasks run and commit one after the other. -/
def untilCounted : List (Proc × Act) :=
  orderedSteps 0 ++ List.replicate 9 (.task 0, .go) ++
    orderedSteps 1 ++ List.replicate 10 (.task 1, .go) ++
    orderedSteps 2 ++ List.replicate 15 (.task 2, .go)

/- A run of the three tasks, up to the group commit. -/
theorem countGroup_run
    (addr : Nat → Nat)
    (value : UInt8)
    (h : ((orderedMachine (countGroup addr)).run
      (fun _ label => label.2 = .go ∨ label.2 = .work)
      (orderedMachine (countGroup addr)).start
      untilCounted).any
        (fun state =>
          Event.groupCommitted 2 ∈ state.1.log ∧
            (state.2.task 2).mem 1 = value) = true) :
    ∃ s d, (orderedMachine (countGroup addr)).Reachable
        (fun state label => NoAborts state.1 label) (s, d) ∧
      Event.groupCommitted 2 ∈ s.log ∧
      (d.task 2).mem 1 = value := by
  have hRun := Machine.exists_reachable_of_run
    (orderedMachine (countGroup addr))
    (fun state label => NoAborts state.1 label)
    (fun _ label => label.2 = .go ∨ label.2 = .work)
    (by
      intro s label hTest
      simp only [decide_eq_true_eq] at hTest
      rcases hTest with h | h <;> simp [NoAborts, h])
    untilCounted _ h
  rcases hRun with ⟨⟨s, d⟩, hReach, hTest⟩
  simp only [decide_eq_true_eq] at hTest
  exact ⟨s, d, hReach, hTest⟩

/- The write ranges of two tasks are equal or disjoint. -/
def OrderedGroup.RangesMatch (g : OrderedGroup) : Prop :=
  ∀ i, i < g.size → ∀ j, j < g.size → i ≠ j →
    ∀ r ∈ (recordAll ((g.region i).writeCalls
        (g.sequential i))).ranges,
      ∀ q ∈ (recordAll ((g.region j).writeCalls
        (g.sequential j))).ranges, EqualOrDisjoint r q

end Cbop
