import Cbop.Group.Merge
import Cbop.Lib.Relay
import Cbop.PostWait.Channel

/-
  A task group with one ordered region, after
  `bop_ordered.c`.

  A task enters the region when its predecessor has posted,
  receives what the predecessor wrote there, runs, and posts
  what it wrote itself. The posted bytes leave its write
  map: they are in no patch, and the task after the next one
  does not see them.

  Main declarations:
    * `bopOrderedBegin`, `bopOrderedEnd`
    * `OrderedGroup`, `orderedMachine`
    * `TasksInv`, with a lemma for each step
-/

namespace Cbop

------------------------------------------------------------
-- Ordered Regions
------------------------------------------------------------

/- What a task holds in its own memory. -/
structure TaskData where
  mem : Memory
  readMap : RangeMap Bytes
  writeMap : RangeMap Bytes
  received : RangeMap Bytes
  receivedNUsed : RangeMap Bytes
  orderedWrites : RangeMap Bytes
  inOrderedRegion : Bool
  orderedRegionId : Nat
  localCh : LocalChannel

/- A task after the `ppr_task_init` of the ports. -/
def pprTaskInit (mem : Memory) : TaskData where
  mem := mem
  readMap := initEmptyMap
  writeMap := initEmptyMap
  received := initEmptyMap
  receivedNUsed := initEmptyMap
  orderedWrites := initEmptyMap
  inOrderedRegion := false
  orderedRegionId := 0
  localCh := { id := 0, data := initEmptyMap }

/- `channel_for_region`. -/
def channelForRegion
    (regionId gs pprIndex : Nat) :
    Nat :=
  (regionId * gs + pprIndex) % 2 ^ 64

/-
  `BOP_ordered_begin`. `none` while the task waits for its
  predecessor.
-/
def bopOrderedBegin
    (status : TaskStatus)
    (id gs pprIndex : Nat)
    (board : SwitchBoard)
    (t : TaskData) :
    Option (Outcome TaskData) :=
  if t.inOrderedRegion then some (.ret t)
  else
    let myCh := channelForRegion id gs pprIndex
    (channelWait status (addrSub myCh 1) board t.readMap
        t.writeMap t.received t.mem).map
      (fun waited => do
        let (received, mem) ← waited
        .ret { t with
          inOrderedRegion := true
          orderedRegionId := id
          received := received
          mem := mem })

/- `BOP_ordered_end`. -/
def bopOrderedEnd
    (status : TaskStatus)
    (id gs pprIndex : Nat)
    (board : SwitchBoard)
    (t : TaskData) :
    Outcome (SwitchBoard × TaskData) :=
  if t.inOrderedRegion ∧ t.orderedRegionId = id then do
    let myCh := channelForRegion id gs pprIndex
    let localCh ←
      t.orderedWrites.ranges.foldlM
        (fun ch r =>
          channelFill status myCh ch r.base r.size)
        t.localCh
    let (board, localCh, writeMap) ←
      channelPost status pprIndex myCh t.mem board localCh
        t.writeMap
    .ret (board,
      { t with
        localCh := localCh
        writeMap := writeMap
        orderedWrites := mapClear t.orderedWrites
        inOrderedRegion := false })
  else .ret (board, t)

/- The accesses of a region, recorded as they are made. -/
def runRegion
    (r : Region)
    (t : TaskData) :
    TaskData :=
  { t with
    mem := r.body t.mem
    readMap :=
      (r.readCalls t.mem).foldl recordAccess t.readMap
    writeMap :=
      (r.writeCalls t.mem).foldl recordAccess t.writeMap
    orderedWrites :=
      if t.inOrderedRegion then
        (r.writeCalls t.mem).foldl recordAccess
          t.orderedWrites
      else t.orderedWrites }

------------------------------------------------------------
-- The Machine
------------------------------------------------------------

/-
  A group whose tasks run their regions inside the ordered
  region `regionId`. `boardSize` is the size of the switch
  board before the group, and `writes` is what is left in
  the tasks' write maps when they are checked.
-/
structure OrderedGroup extends MergeGroup where
  regionId : Nat
  boardSize : Nat
  writes : Nat → List (MemRange Bytes)

namespace OrderedGroup

def control (g : OrderedGroup) : Group (MemRange Bytes) where
  size := g.size
  writes := g.writes
  atomicSet := g.atomicSet
  mainLeads := g.mainLeads

/- MAIN is task 0. -/
def status (k : Nat) : TaskStatus :=
  if k = 0 then .main else .spec

/- The channel of task `k`. -/
def channel (g : OrderedGroup) (k : Nat) : Nat :=
  channelForRegion g.regionId g.size (g.pprIndex + k)

end OrderedGroup

/- How far a task is with the ordered region. -/
inductive Stage where
| before
| inside
| ran
| left
deriving DecidableEq, Repr

/- What the tasks hold, and what they share. -/
structure OrderedData where
  task : Nat → TaskData
  stage : Nat → Stage
  board : SwitchBoard
  writeUnion : RangeMap Bytes
  patches : Nat → RangeMap Bytes

def OrderedData.setTask
    (d : OrderedData)
    (k : Nat)
    (t : TaskData)
    (stage : Stage) :
    OrderedData :=
  { d with
    task := Function.update d.task k t
    stage := Function.update d.stage k stage }

/- A step of task `k` inside its region. -/
def orderedWork
    (g : OrderedGroup)
    (k : Nat)
    (d : OrderedData) :
    Option OrderedData :=
  match d.stage k with
  | .before =>
      match bopOrderedBegin (OrderedGroup.status k)
          g.regionId g.size (g.pprIndex + k) d.board
          (d.task k) with
      | some (.ret t) => some (d.setTask k t .inside)
      | _ => none
  | .inside =>
      some (d.setTask k (runRegion (g.region k) (d.task k))
        .ran)
  | .ran =>
      match bopOrderedEnd (OrderedGroup.status k)
          g.regionId g.size (g.pprIndex + k) d.board
          (d.task k) with
      | .ret (board, t) =>
          some { d.setTask k t .left with board := board }
      | _ => none
  | .left => some d

/- What the check of task `k` reads and writes. -/
def OrderedData.checkState
    (d : OrderedData)
    (k : Nat) :
    CheckState where
  writeUnion := d.writeUnion
  received := (d.task k).received
  receivedNUsed := (d.task k).receivedNUsed
  conflictAddr := 0

/- The data after the check of task `k`. -/
def OrderedData.afterCheck
    (d : OrderedData)
    (k : Nat)
    (st : CheckState) :
    OrderedData :=
  { d with
    writeUnion := st.writeUnion
    task := Function.update d.task k
      { d.task k with
        received := st.received
        receivedNUsed := st.receivedNUsed } }

/- The effect on the data of a step of the protocol. -/
def orderedGo
    (g : OrderedGroup)
    (k : Nat)
    (d : OrderedData) :
    Pc (MemRange Bytes) → Option OrderedData
| .region => if d.stage k = .left then some d else none
| .checking =>
    -- the protocol inserts what the write map holds
    if (d.task k).writeMap.ranges = g.writes k then
      match checkForOverlap (d.checkState k)
          (d.task k).readMap with
      | .ret (st, 0) => some (d.afterCheck k st)
      | _ => none
    else none
| .inserting (range :: _) =>
    match unionAddRange (g.pprIndex + k) d.writeUnion
        range with
    | .ret writeUnion =>
        some { d with writeUnion := writeUnion }
    | _ => none
| .dataCommit =>
    -- the merge port commits first
    match postwaitCommit k (g.pprIndex + k)
        (pprCommit d.patches k (d.task k).mem
          (d.task k).writeMap)
        (d.task k).receivedNUsed with
    | .ret patches => some { d with patches := patches }
    | _ => none
| .groupCommit =>
    let (patches, mem) :=
      pprGroupCommit d.patches k (d.task k).mem
    some { d with
      patches := patches
      task := Function.update d.task k
        { d.task k with mem := mem } }
| _ => some d

/- The data's part of a step. -/
def orderedReact
    (g : OrderedGroup)
    (s : State (MemRange Bytes))
    (label : Proc × Act)
    (d : OrderedData) :
    Option OrderedData :=
  match label with
  | (.task k, .go) => orderedGo g k d (s.pc k)
  | (.task k, .work) =>
      match s.pc k with
      | .region => orderedWork g k d
      | _ => some d
  | (.task k, .fail) =>
      match checkForOverlap (d.checkState k)
          (d.task k).readMap with
      | .ret (st, _ + 1) => some (d.afterCheck k st)
      | _ => none
  | _ => some d

/- The group from its initialisation on. -/
def orderedMachine (g : OrderedGroup) :
    Machine (State (MemRange Bytes) × OrderedData)
      (Proc × Act) :=
  (protocol g.control).withData
    { task := fun _ => pprTaskInit g.memory
      stage := fun _ => .before
      board := postwaitInit g.boardSize g.size
      writeUnion := initEmptyMap
      patches := g.patches }
    (orderedReact g)

------------------------------------------------------------
-- What Tasks and Channels Hold
------------------------------------------------------------

namespace OrderedGroup

/- The memory task `k` runs its region on. -/
noncomputable def start
    (g : OrderedGroup)
    (k : Nat) :
    Memory :=
  Transaction.relay g.memory (g.transactions k)

/- What task `k` leaves in its memory. -/
noncomputable def finish
    (g : OrderedGroup)
    (k : Nat) :
    Memory :=
  (g.region k).body (g.start k)

/- The writes of task `k`, as it records them. -/
noncomputable def calls
    (g : OrderedGroup)
    (k : Nat) :
    List (Nat × Nat) :=
  (g.region k).writeCalls (g.start k)

/-
  The channels' ids are machine words that do not wrap; the
  first region of a program has index 1.
-/
structure IdsFit (g : OrderedGroup) : Prop where
  pos : 0 < g.pprIndex
  fits : g.regionId * g.size + g.pprIndex + g.size < 2 ^ 64

/-
  No write is lost in recording, and no stored range is too
  long for the `unsigned` size of `channel_fill`.
-/
structure RecordsWrites
    (g : OrderedGroup)
    (writeCalls : Nat → List (Nat × Nat)) : Prop where
  calls : ∀ k, k < g.size → ∀ c ∈ writeCalls k, CallOk c
  exact : ∀ k, k < g.size → RecordsExactly (writeCalls k)
  small : ∀ k, k < g.size →
    ∀ r ∈ (recordAll (writeCalls k)).ranges, r.size < 2 ^ 32

end OrderedGroup

/- What a task holds at each stage. -/
structure TaskInv
    (g : OrderedGroup)
    (k : Nat)
    (stage : Stage)
    (t : TaskData) : Prop where
  used : t.receivedNUsed.size = 0
  before : stage = .before → t = pprTaskInit g.memory
  inside : stage = .inside →
    t.mem = g.start k ∧ t.writeMap = initEmptyMap
  ran : stage = .ran →
    t.mem = g.finish k ∧ t.writeMap = recordAll (g.calls k)
  entered : stage = .inside ∨ stage = .ran →
    t.orderedWrites = t.writeMap ∧
      t.inOrderedRegion = true ∧
      t.orderedRegionId = g.regionId ∧
      t.localCh = { id := 0, data := initEmptyMap }
  left : stage = .left →
    t.mem = g.finish k ∧ t.writeMap.ranges = []

/- What the tasks and the board hold. -/
structure TasksInv
    (g : OrderedGroup)
    (d : OrderedData) : Prop where
  task : ∀ k, k < g.size →
    TaskInv g k (d.stage k) (d.task k)
  board : d.board.size =
    (postwaitInit g.boardSize g.size).size
  free : ∀ k, k < g.size → d.stage k ≠ .left →
    (d.board.channels (d.board.index (g.channel k))).Open
      (g.channel k)
  posted : ∀ k, k < g.size → d.stage k = .left →
    (d.board.channels (d.board.index (g.channel k))).Carries
      (g.channel k) (callBytes (g.calls k)) (g.finish k)
  union : d.writeUnion.size = 0

section Tasks

variable {g : OrderedGroup}
variable {d : OrderedData}
variable {k : Nat}

theorem OrderedGroup.IdsFit.channel_eq
    (h : g.IdsFit)
    (hk : k < g.size) :
    g.channel k = g.regionId * g.size + g.pprIndex + k := by
  have hFits := h.fits
  unfold OrderedGroup.channel channelForRegion
  rw [Nat.mod_eq_of_lt (by omega)]
  omega

/- The task before `k + 1` posts where `k + 1` waits. -/
theorem OrderedGroup.IdsFit.channel_pred
    (h : g.IdsFit)
    (hk : k + 1 < g.size) :
    addrSub (g.channel (k + 1)) 1 = g.channel k := by
  have hFits := h.fits
  rw [h.channel_eq hk, h.channel_eq (by omega),
    addrSub_of_le (by omega) (by omega)]
  omega

/- The tasks of a group use different channels. -/
theorem OrderedGroup.IdsFit.index_ne
    (h : g.IdsFit)
    {size i j : Nat}
    (hBoard : size =
      (postwaitInit g.boardSize g.size).size)
    (hi : i < g.size)
    (hj : j < g.size)
    (hNe : i ≠ j) :
    g.channel i % size ≠ g.channel j % size := by
  have hSize : g.size ≤ size := by
    rw [hBoard]
    unfold postwaitInit
    dsimp only
    split <;> omega
  rw [h.channel_eq hi, h.channel_eq hj]
  intro hEq
  have hClose :
      ∀ a b c : Nat, a < b → b < size →
        (c + a) % size = (c + b) % size → False := by
    intro a b c hLt hb hMod
    have hZero := Nat.sub_mod_eq_zero_of_mod_eq hMod.symm
    rw [Nat.add_sub_add_left,
      Nat.mod_eq_of_lt (by omega)] at hZero
    omega
  rcases Nat.lt_or_gt_of_ne hNe with hLt | hLt
  · exact hClose i j _ hLt (by omega) hEq
  · exact hClose j i _ hLt (by omega) hEq.symm

/- The start of the next task. -/
theorem OrderedGroup.start_succ
    (k : Nat) :
    g.start (k + 1) =
      Transaction.handOn g.memory (g.start k)
        (g.region k).transaction := by
  unfold OrderedGroup.start
  rw [g.transactions_succ, Transaction.relay_concat]

/- A task moves on and the board stays as it is. -/
theorem tasksInv_setTask
    {t : TaskData}
    {stage : Stage}
    (hInv : TasksInv g d)
    (hTask : TaskInv g k stage t)
    (hStage : stage ≠ .left)
    (hOld : d.stage k ≠ .left) :
    TasksInv g (d.setTask k t stage) := by
  have hLeft :
      ∀ j, (d.setTask k t stage).stage j = .left ↔
        d.stage j = .left := by
    intro j
    by_cases hSelf : j = k
    · subst hSelf
      simp [OrderedData.setTask, hStage, hOld]
    · simp [OrderedData.setTask, hSelf]
  refine ⟨?_, hInv.board, ?_, ?_, hInv.union⟩
  · intro j hj
    by_cases hSelf : j = k
    · subst hSelf
      simpa [OrderedData.setTask] using hTask
    · simpa [OrderedData.setTask, hSelf] using
        hInv.task j hj
  · intro j hj hNot
    rw [ne_eq, hLeft] at hNot
    exact hInv.free j hj hNot
  · intro j hj hAt
    rw [hLeft] at hAt
    exact hInv.posted j hj hAt

/- What a task has received when it enters the region. -/
theorem channelWait_start
    {received : RangeMap Bytes}
    {mem : Memory}
    (hIds : g.IdsFit)
    (hInv : TasksInv g d)
    (hk : k < g.size)
    (h : channelWait (OrderedGroup.status k)
      (addrSub (g.channel k) 1) d.board initEmptyMap
      initEmptyMap initEmptyMap g.memory =
        some (.ret (received, mem))) :
    mem = g.start k := by
  cases k with
  | zero =>
      have hEq : g.memory = mem := by
        simp [channelWait, OrderedGroup.status] at h
        exact h.2
      exact hEq.symm
  | succ j =>
      rw [hIds.channel_pred hk] at h
      change channelWait .spec _ _ _ _ _ _ = _ at h
      by_cases hLeft : d.stage j = .left
      · rcases channelWait_spec g.memory
            (hInv.posted j (by omega) hLeft)
            ranges_initEmptyMap ranges_initEmptyMap
            (keeps_initEmptyMap 0) ranges_initEmptyMap with
          ⟨received', next, hWait, hIn, hOut⟩
        rw [hWait] at h
        simp only [Option.some.injEq, Outcome.ret.injEq,
          Prod.mk.injEq] at h
        rw [← h.2, OrderedGroup.start_succ]
        classical
        funext a
        by_cases ha : a ∈ callBytes (g.calls j)
        · rw [hIn a ha]
          exact (Set.piecewise_eq_of_mem _ _ _ ha).symm
        · rw [hOut a ha]
          exact (Set.piecewise_eq_of_notMem _ _ _ ha).symm
      · have hOpen := hInv.free j (by omega) hLeft
        -- nothing is posted, so the task still waits
        simp [channelWait, hOpen.isPosted] at h

theorem tasksInv_begin
    {t : TaskData}
    (hIds : g.IdsFit)
    (hInv : TasksInv g d)
    (hk : k < g.size)
    (hStage : d.stage k = .before)
    (h : bopOrderedBegin (OrderedGroup.status k)
      g.regionId g.size (g.pprIndex + k) d.board
      (d.task k) = some (.ret t)) :
    TasksInv g (d.setTask k t .inside) := by
  have hTask := (hInv.task k hk).before hStage
  rw [hTask] at h
  unfold bopOrderedBegin at h
  simp only [pprTaskInit, Bool.false_eq_true, if_false,
    Option.map_eq_some_iff, Outcome.bind_eq_ret_iff] at h
  rcases h with ⟨waited, hWait, ⟨received, mem⟩, rfl, hRet⟩
  have hMem := channelWait_start hIds hInv hk hWait
  simp only [Outcome.ret.injEq] at hRet
  subst hRet
  refine tasksInv_setTask hInv ?_ (by simp) (by simp [hStage])
  refine ⟨rfl, by simp, ?_, by simp, ?_, by simp⟩
  · intro _
    exact ⟨hMem, rfl⟩
  · intro _
    exact ⟨rfl, rfl, rfl, rfl⟩

theorem tasksInv_run
    (hInv : TasksInv g d)
    (hk : k < g.size)
    (hStage : d.stage k = .inside) :
    TasksInv g
      (d.setTask k (runRegion (g.region k) (d.task k))
        .ran) := by
  have hTask := hInv.task k hk
  rcases hTask.inside hStage with ⟨hMem, hWrite⟩
  rcases hTask.entered (.inl hStage) with
    ⟨hOrdered, hIn, hId, hLocal⟩
  refine tasksInv_setTask hInv ?_ (by simp) (by simp [hStage])
  refine ⟨hTask.used, by simp, by simp, ?_, ?_, by simp⟩
  · intro _
    simp only [runRegion, hMem, hWrite]
    exact ⟨rfl, rfl⟩
  · intro _
    simp only [runRegion, hIn, if_true, hOrdered]
    exact ⟨trivial, trivial, hId, hLocal⟩

/- A task leaves the region: all it wrote is posted. -/
theorem bopOrderedEnd_spec
    {t : TaskData}
    (hIds : g.IdsFit)
    (hRecords : g.RecordsWrites g.calls)
    (hInv : TasksInv g d)
    (hk : k < g.size)
    (hStage : d.stage k = .ran)
    {board : SwitchBoard}
    (h : bopOrderedEnd (OrderedGroup.status k)
      g.regionId g.size (g.pprIndex + k) d.board
      (d.task k) = .ret (board, t)) :
    TaskInv g k .left t ∧
      ∃ ch, board =
          d.board.set (d.board.index (g.channel k)) ch ∧
        ch.Carries (g.channel k) (callBytes (g.calls k))
          (g.finish k) := by
  have hTask := hInv.task k hk
  rcases hTask.ran hStage with ⟨hMem, hWrite⟩
  rcases hTask.entered (.inr hStage) with
    ⟨hOrdered, hIn, hId, hLocal⟩
  rcases covered_recordAll (hRecords.calls k hk)
      (hRecords.exact k hk) with
    ⟨hWell, hCovered, -⟩
  have hStatus : (OrderedGroup.status k).aside = false := by
    unfold OrderedGroup.status
    split <;> rfl
  have hChannel : g.channel k ≠ 0 := by
    have hPos := hIds.pos
    rw [hIds.channel_eq hk]
    omega
  rcases foldlM_channelFill hStatus hChannel
      (recordAll (g.calls k)).ranges
      { id := 0, data := initEmptyMap } (.inl rfl)
      (keeps_initEmptyMap 1) hWell.apart
      (hRecords.small k hk) (by simp) with
    ⟨localCh, hFill, hServes, hLocalWell, hLocalCovered⟩
  have hSame :
      localCh.data.covered = (recordAll (g.calls k)).covered := by
    rw [hLocalCovered, covered_initEmptyMap, Set.empty_union]
    rfl
  rcases channelPost_spec (g.pprIndex + k) (g.finish k)
      hStatus hChannel hServes hLocalWell hWell
      (hInv.free k hk (by simp [hStage])) with
    ⟨ch, localCh', writeMap', hPost, hCarries, hWell',
      hCovered'⟩
  rw [hSame, Set.inter_self, hCovered] at hCarries
  rw [hSame, Set.sdiff_self,
    covered_eq_empty_iff hWell'.apart] at hCovered'
  unfold bopOrderedEnd at h
  rw [if_pos ⟨hIn, hId⟩] at h
  simp only [hOrdered, hLocal, hMem, hWrite] at h
  change ((recordAll (g.calls k)).ranges.foldlM
      (fun ch r => channelFill (OrderedGroup.status k)
        (g.channel k) ch r.base r.size)
      { id := 0, data := initEmptyMap } >>= fun localCh =>
        channelPost (OrderedGroup.status k) (g.pprIndex + k)
          (g.channel k) (g.finish k) d.board localCh
          (recordAll (g.calls k)) >>= _) = _ at h
  rw [hFill, Outcome.ret_bind, hPost, Outcome.ret_bind] at h
  simp only [Outcome.ret.injEq, Prod.mk.injEq] at h
  rcases h with ⟨rfl, rfl⟩
  refine ⟨⟨hTask.used, by simp, by simp, by simp, by simp, ?_⟩,
    ch, rfl, hCarries⟩
  intro _
  exact ⟨rfl, hCovered'⟩

theorem tasksInv_end
    {t : TaskData}
    (hIds : g.IdsFit)
    (hRecords : g.RecordsWrites g.calls)
    (hInv : TasksInv g d)
    (hk : k < g.size)
    (hStage : d.stage k = .ran)
    {board : SwitchBoard}
    (h : bopOrderedEnd (OrderedGroup.status k)
      g.regionId g.size (g.pprIndex + k) d.board
      (d.task k) = .ret (board, t)) :
    TasksInv g { d.setTask k t .left with board := board } := by
  rcases bopOrderedEnd_spec hIds hRecords hInv hk hStage h with
    ⟨hTask, ch, rfl, hCarries⟩
  have hOther :
      ∀ j, j < g.size → j ≠ k →
        (d.board.set (d.board.index (g.channel k))
            ch).channels (d.board.index (g.channel j)) =
          d.board.channels (d.board.index (g.channel j)) := by
    intro j hj hNe
    exact Function.update_of_ne
      (hIds.index_ne hInv.board hj hk hNe) _ _
  refine ⟨?_, hInv.board, ?_, ?_, hInv.union⟩
  · intro j hj
    by_cases hSelf : j = k
    · subst hSelf
      simpa [OrderedData.setTask] using hTask
    · simpa [OrderedData.setTask, hSelf] using
        hInv.task j hj
  · intro j hj hNot
    have hSelf : j ≠ k := by
      intro hEq
      subst hEq
      simp [OrderedData.setTask] at hNot
    change ((d.board.set _ ch).channels
      (d.board.index (g.channel j))).Open _
    rw [hOther j hj hSelf]
    apply hInv.free j hj
    simpa [OrderedData.setTask, hSelf] using hNot
  · intro j hj hLeft
    change ((d.board.set _ ch).channels
      (d.board.index (g.channel j))).Carries _ _ _
    by_cases hSelf : j = k
    · subst hSelf
      simpa [SwitchBoard.set] using hCarries
    · rw [hOther j hj hSelf]
      apply hInv.posted j hj
      simpa [OrderedData.setTask, hSelf] using hLeft

end Tasks

end Cbop
