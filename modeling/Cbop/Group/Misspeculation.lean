import Cbop.Group.Verdicts

/-
  What a group commits when some of its tasks failed.

  Checks may fail and tasks may abort or die, as long as the
  size shrinks in time. The committing task is then the last
  one of a prefix of the group. It may have committed data
  of its own before a later task failed; its patch is then
  laid down with the others, and the memory is always the
  sequential one. If it has not, its memory can lose its own
  last writes.

  Main declarations:
    * `CopyInv`, with a lemma for each step
    * `copyInv_of_reachable`
    * `MergeGroup.LastAgreesAt`
    * `misspeculated_commit_iff`
-/

namespace Cbop

------------------------------------------------------------
-- The Invariant
------------------------------------------------------------

/-
  The number of tasks whose patches the committing task has
  laid over its memory: its own is among them if it has
  committed data before.
-/
def patchesLaid
    (log : List (Event (MemRange Bytes)))
    (j : Nat) : Nat :=
  if Event.dataCommitted j ∈ log then j + 1 else j

/- The memories and the patches, by what the tasks did. -/
structure CopyInv
    (g : MergeGroup)
    (s : State (MemRange Bytes))
    (d : MergeData) : Prop where
  memFresh : ∀ k, fresh (s.pc k) = true →
    d.mem k = g.memory
  memRan : ∀ k, ranRegion (s.pc k) = true →
    Event.groupCommitted k ∉ s.log →
      d.mem k = (g.region k).body g.memory
  slots : (∀ j, Event.groupCommitted j ∉ s.log) →
    ∀ k, d.patches k =
      if Event.dataCommitted k ∈ s.log then
        createPatch ((g.region k).body g.memory)
          (g.writeMap k)
      else g.patches k
  final : ∀ j, Event.groupCommitted j ∈ s.log →
    d.mem j =
      Transaction.replay g.memory
        (g.transactions (patchesLaid s.log j))
        ((g.region j).body g.memory)

/- The event is one of the two commits. -/
def Event.isCommit {ρ : Type} : Event ρ → Bool
| .dataCommitted _ => true
| .groupCommitted _ => true
| _ => false

theorem isCommit_of_onData
    {ρ : Type}
    {events : List (Event ρ)}
    (h : ∀ e ∈ events, e.onData = false) :
    ∀ e ∈ events, e.isCommit = false := by
  intro e he
  have hOff := h e he
  cases e <;> simp_all [Event.onData, Event.isCommit]

section Steps

variable {g : MergeGroup}
variable {s s' : State (MemRange Bytes)}
variable {d d' : MergeData}
variable {k : Nat}

/-
  Steps without a commit: the memories may only change at a
  task that is past neither commit, and to what its point
  says.
-/
theorem copyInv_keep
    {events : List (Event (MemRange Bytes))}
    (hInv : CopyInv g s d)
    (hLog : s'.log = s.log ++ events)
    (hEvents : ∀ e ∈ events, e.isCommit = false)
    (hPatches : d'.patches = d.patches)
    (hFresh : ∀ j, fresh (s'.pc j) = true →
      d'.mem j = g.memory)
    (hRan : ∀ j, ranRegion (s'.pc j) = true →
      Event.groupCommitted j ∉ s.log →
        d'.mem j = (g.region j).body g.memory)
    (hFinal : ∀ j, Event.groupCommitted j ∈ s.log →
      d'.mem j = d.mem j) :
    CopyInv g s' d' := by
  have hMem :
      ∀ e : Event (MemRange Bytes), e.isCommit = true →
        (e ∈ s'.log ↔ e ∈ s.log) := by
    intro e he
    rw [hLog, List.mem_append]
    apply or_iff_left
    intro hNew
    simp [hEvents e hNew] at he
  have hData :
      ∀ j, (Event.dataCommitted j ∈ s'.log ↔
        Event.dataCommitted j ∈ s.log) :=
    fun j => hMem _ rfl
  have hGroup :
      ∀ j, (Event.groupCommitted j ∈ s'.log ↔
        Event.groupCommitted j ∈ s.log) :=
    fun j => hMem _ rfl
  refine ⟨hFresh, ?_, ?_, ?_⟩
  · intro j hj hNot
    rw [hGroup] at hNot
    exact hRan j hj hNot
  · intro hNone j
    simp only [hGroup] at hNone
    simp only [hData, hPatches]
    exact hInv.slots hNone j
  · intro j hj
    rw [hGroup] at hj
    rw [hFinal j hj, hInv.final j hj]
    simp only [patchesLaid, hData]

/- A move that leaves the memories and patches alone. -/
theorem copyInv_off
    {pc : Pc (MemRange Bytes)}
    {events : List (Event (MemRange Bytes))}
    (hInv : CopyInv g s d)
    (hMoves : MovesTo s s' k pc events)
    (hEvents : ∀ e ∈ events, e.isCommit = false)
    (hPatches : d'.patches = d.patches)
    (hMem : d'.mem = d.mem)
    (hFresh : fresh pc = true → fresh (s.pc k) = true)
    (hRan : ranRegion pc = true →
      ranRegion (s.pc k) = true) :
    CopyInv g s' d' := by
  refine copyInv_keep hInv hMoves.log hEvents hPatches
    ?_ ?_ (fun j _ => by rw [hMem])
  · intro j hj
    rw [hMem]
    apply hInv.memFresh j
    by_cases hSelf : j = k
    · subst hSelf
      rw [hMoves.self] at hj
      exact hFresh hj
    · rwa [hMoves.other fresh rfl j hSelf] at hj
  · intro j hj hNot
    rw [hMem]
    refine hInv.memRan j ?_ hNot
    by_cases hSelf : j = k
    · subst hSelf
      rw [hMoves.self] at hj
      exact hRan hj
    · rwa [hMoves.other ranRegion rfl j hSelf] at hj

/- The task runs its region. -/
theorem copyInv_region
    (hInv : CopyInv g s d)
    (hPc : s.pc k = .region)
    (hMoves : MovesTo s s' k .taskCommit [])
    (hNot : Event.groupCommitted k ∉ s.log) :
    CopyInv g s' { d with
      mem := Function.update d.mem k
        ((g.region k).body (d.mem k)) } := by
  have hStart : d.mem k = g.memory :=
    hInv.memFresh k (by rw [hPc]; rfl)
  have hOther :
      ∀ j, j ≠ k →
        Function.update d.mem k
          ((g.region k).body (d.mem k)) j = d.mem j :=
    fun j hj => Function.update_of_ne hj _ _
  refine copyInv_keep hInv hMoves.log (by simp) rfl
    ?_ ?_ ?_
  · intro j hj
    by_cases hSelf : j = k
    · rw [hSelf, hMoves.self] at hj
      cases hj
    · rw [hMoves.other fresh rfl j hSelf] at hj
      exact (hOther j hSelf).trans (hInv.memFresh j hj)
  · intro j hj hGroup
    by_cases hSelf : j = k
    · subst hSelf
      change Function.update d.mem j _ j = _
      rw [Function.update_self, hStart]
    · rw [hMoves.other ranRegion rfl j hSelf] at hj
      exact (hOther j hSelf).trans
        (hInv.memRan j hj hGroup)
  · intro j hj
    apply hOther
    intro hSelf
    exact hNot (hSelf ▸ hj)

/- The task publishes its patch. -/
theorem copyInv_dataCommit
    (hInv : CopyInv g s d)
    (hPc : s.pc k = .dataCommit)
    (hMoves : MovesTo s s' k .signalCommit
      [.dataCommitted k])
    (hNot : Event.groupCommitted k ∉ s.log) :
    CopyInv g s' { d with
      patches := pprCommit d.patches k (d.mem k)
        (g.writeMap k) } := by
  have hGroup :
      ∀ j, (Event.groupCommitted j ∈ s'.log ↔
        Event.groupCommitted j ∈ s.log) := by
    intro j
    simp [hMoves.log]
  have hData :
      ∀ j, (Event.dataCommitted j ∈ s'.log ↔
        Event.dataCommitted j ∈ s.log ∨ j = k) := by
    intro j
    simp [hMoves.log]
  have hRan : d.mem k = (g.region k).body g.memory :=
    hInv.memRan k (by rw [hPc]; rfl) hNot
  refine ⟨?_, ?_, ?_, ?_⟩
  · intro j hj
    by_cases hSelf : j = k
    · rw [hSelf, hMoves.self] at hj
      cases hj
    · rw [hMoves.other fresh rfl j hSelf] at hj
      exact hInv.memFresh j hj
  · intro j hj hNone
    rw [hGroup] at hNone
    by_cases hSelf : j = k
    · rw [hSelf]
      exact hRan
    · rw [hMoves.other ranRegion rfl j hSelf] at hj
      exact hInv.memRan j hj hNone
  · intro hNone j
    simp only [hGroup] at hNone
    change Function.update d.patches k _ j = _
    by_cases hSelf : j = k
    · subst hSelf
      rw [Function.update_self, hRan,
        if_pos ((hData j).mpr (.inr rfl))]
    · rw [Function.update_of_ne hSelf,
        hInv.slots hNone j]
      simp only [hData, hSelf, or_false]
  · intro j hj
    rw [hGroup] at hj
    have hSelf : j ≠ k := by
      intro hEq
      exact hNot (hEq ▸ hj)
    rw [hInv.final j hj]
    simp only [patchesLaid, hData, hSelf, or_false]

/- The patches a task lays down when it commits. -/
theorem pprGroupCommit_replays
    (hRecords : g.Records)
    (hSlot : (g.patches k).ranges = [])
    (hk : k < g.size)
    (hInv : CopyInv g s d)
    (hNone : ∀ j, Event.groupCommitted j ∉ s.log)
    (hEarlier : ∀ j, j < k →
      Event.dataCommitted j ∈ s.log)
    (m : Memory) :
    (pprGroupCommit d.patches k m).2 =
      Transaction.replay g.memory
        (g.transactions (patchesLaid s.log k)) m := by
  have hPatch :
      ∀ j, Event.dataCommitted j ∈ s.log →
        d.patches j =
          createPatch ((g.region j).body g.memory)
            (g.writeMap j) := by
    intro j hj
    rw [hInv.slots hNone j, if_pos hj]
  change (List.range (k + 1)).foldl _ m = _
  unfold patchesLaid
  split
  · rename_i hOwn
    refine hRecords.foldl_applyPatch d.patches m (k + 1)
      (by omega) ?_
    intro j hj
    apply hPatch
    by_cases hSelf : j = k
    · exact hSelf ▸ hOwn
    · exact hEarlier j (by omega)
  · rename_i hOwn
    have hEmpty : (d.patches k).ranges = [] := by
      rw [hInv.slots hNone k, if_neg hOwn]
      exact hSlot
    rw [List.range_succ, List.foldl_append,
      hRecords.foldl_applyPatch d.patches m k (by omega)
        (fun j hj => hPatch j (hEarlier j hj))]
    exact applyPatch_of_empty _ hEmpty

/- A task commits the group. -/
theorem copyInv_groupCommit
    (hRecords : g.Records)
    (hSlot : (g.patches k).ranges = [])
    (hk : k < g.size)
    (hInv : CopyInv g s d)
    (hPc : s.pc k = .groupCommit)
    (hMoves : MovesTo s s' k .groupSignal
      [.groupCommitted k])
    (hNone : ∀ j, Event.groupCommitted j ∉ s.log)
    (hEarlier : ∀ j, j < k →
      Event.dataCommitted j ∈ s.log) :
    CopyInv g s' { d with
      patches := (pprGroupCommit d.patches k (d.mem k)).1
      mem := Function.update d.mem k
        (pprGroupCommit d.patches k (d.mem k)).2 } := by
  have hGroup :
      ∀ j, (Event.groupCommitted j ∈ s'.log ↔ j = k) := by
    intro j
    simp [hMoves.log, hNone]
  have hData :
      ∀ j, (Event.dataCommitted j ∈ s'.log ↔
        Event.dataCommitted j ∈ s.log) := by
    intro j
    simp [hMoves.log]
  have hRan : d.mem k = (g.region k).body g.memory :=
    hInv.memRan k (by rw [hPc]; rfl) (hNone k)
  have hOther :
      ∀ j, j ≠ k →
        Function.update d.mem k
            (pprGroupCommit d.patches k (d.mem k)).2 j =
          d.mem j :=
    fun j hj => Function.update_of_ne hj _ _
  refine ⟨?_, ?_, ?_, ?_⟩
  · intro j hj
    by_cases hSelf : j = k
    · rw [hSelf, hMoves.self] at hj
      cases hj
    · rw [hMoves.other fresh rfl j hSelf] at hj
      exact (hOther j hSelf).trans (hInv.memFresh j hj)
  · intro j hj hNot
    rw [hGroup] at hNot
    rw [hMoves.other ranRegion rfl j hNot] at hj
    exact (hOther j hNot).trans
      (hInv.memRan j hj (hNone j))
  · intro hNone'
    exact absurd ((hGroup k).mpr rfl) (hNone' k)
  · intro j hj
    rw [hGroup] at hj
    subst hj
    change Function.update d.mem j _ j = _
    rw [Function.update_self,
      pprGroupCommit_replays hRecords hSlot hk hInv hNone
        hEarlier, hRan]
    simp only [patchesLaid, hData]

/- The move of a task, and what it does to the data. -/
theorem copyInv_go
    {move : Move (MemRange Bytes)}
    (hRecords : g.Records)
    (hSlots : ∀ j, j < g.size →
      (g.patches j).ranges = [])
    (hk : k < g.size)
    (hReach : (protocol g.protocolGroup).Reachable
      (ShrinksInTime g.protocolGroup) s)
    (hInv : CopyInv g s d)
    (hMove : TaskMove g.protocolGroup k s.partialSize
      (s.pc k) .go move)
    (hMerge : MergeMove g k d (s.pc k) d')
    (hMoves : MovesTo s s' k move.1 move.2.2) :
    CopyInv g s' d' := by
  have hNot :
      pastCommit (s.pc k) = false →
        Event.groupCommitted k ∉ s.log := by
    intro hPast hMem
    rw [(failInv_of_reachable hReach).past k hMem] at hPast
    cases hPast
  generalize hAt : s.pc k = pc at hMove hMerge
  cases hMerge with
  | region =>
      have hNone := hNot (by rw [hAt]; rfl)
      cases hMove with
      | endMain =>
          exact copyInv_region hInv hAt hMoves hNone
      | endSpec =>
          exact copyInv_region hInv hAt hMoves hNone
  | checking hPass =>
      cases hMove
      exact copyInv_off hInv hMoves (by simp) rfl rfl
        (by simp [fresh]) (by simp [hAt, ranRegion])
  | inserting hAdd =>
      cases hMove
      exact copyInv_off hInv hMoves
        (by simp [Event.isCommit]) rfl rfl
        (by simp [fresh]) (by simp [hAt, ranRegion])
  | dataCommit =>
      cases hMove
      exact copyInv_dataCommit hInv hAt hMoves
        (hNot (by rw [hAt]; rfl))
  | groupCommit =>
      cases hMove
      rcases prefix_of_commit hReach hAt with
        ⟨hNone, hEarlier⟩
      exact copyInv_groupCommit hRecords (hSlots k hk) hk
        hInv hAt hMoves hNone hEarlier
  | none hRegion hChecking hInserting hData hGroup =>
      rcases hMove.offData (by simp) (fun _ =>
          ⟨hRegion, hChecking, hInserting, hData, hGroup⟩) with
        ⟨hEvents, hFresh, hRan, -⟩
      rw [← hAt] at hFresh hRan
      exact copyInv_off hInv hMoves
        (isCommit_of_onData hEvents) rfl rfl hFresh hRan

theorem copyInv_step
    {label : Proc × Act}
    (hSize : 1 ≤ g.size)
    (hRecords : g.Records)
    (hSlots : ∀ j, j < g.size →
      (g.patches j).ranges = [])
    (hReach : (protocol g.protocolGroup).Reachable
      (ShrinksInTime g.protocolGroup) s)
    (hInv : CopyInv g s d)
    (hStep : step g.protocolGroup s label = some s')
    (hReact : mergeReact g s label d = some d') :
    CopyInv g s' d' := by
  have hUnspawned := unspawned_of_reachable hReach
  cases coreStep_of_step hStep with
  | moved k act move hLabel hMove hFree hPc hHeld hPsize
      hLog =>
      subst hLabel
      have hMoves : MovesTo s s' k move.1 move.2.2 :=
        movesTo_of_moved hUnspawned hMove hPc hLog
      have hk : k < g.size := by
        have hBorn := (birthInv_of_reachable hReach).born k
          hMove.ne_unborn
        change k = 0 ∨ k < g.size at hBorn
        omega
      by_cases hGo : act = .go
      · subst hGo
        exact copyInv_go hRecords hSlots hk hReach hInv
          hMove (mergeMove_of_mergeGo hReact) hMoves
      · by_cases hFail : act = .fail
        · subst hFail
          rcases mergeReact_fail hReact with
            ⟨st, conflict, -, rfl⟩
          generalize hAt : s.pc k = pc at hMove
          cases hMove
          exact copyInv_off hInv hMoves
            (by simp [Event.isCommit]) rfl rfl
            (by simp [fresh]) (by simp [hAt, ranRegion])
        · rw [mergeReact_of_act hGo hFail,
            Option.some.injEq] at hReact
          subst hReact
          rcases hMove.offData hFail
              (fun h => absurd h hGo) with
            ⟨hEvents, hFresh, hRan, -⟩
          exact copyInv_off hInv hMoves
            (isCommit_of_onData hEvents) rfl rfl hFresh hRan
  | ended k why hLabel hAlive hPc hHeld hPsize hLog =>
      rw [mergeReact_of_signal hLabel,
        Option.some.injEq] at hReact
      subst hReact
      have hMoves : MovesTo s s' k (.exited why) [] :=
        movesTo_of_ended hPc hLog
      exact copyInv_off hInv hMoves (by simp) rfl rfl
        (by simp [fresh]) (by simp [ranRegion])
  | aside hLabel hPc hHeld hPsize hLog =>
      rw [mergeReact_of_signal hLabel,
        Option.some.injEq] at hReact
      subst hReact
      rcases log_of_aside hLog with ⟨events, hEq, hUndy⟩
      refine copyInv_keep hInv hEq ?_ rfl ?_ ?_
        (fun _ _ => rfl)
      · intro e he
        rw [hUndy e he]
        rfl
      · rw [hPc]
        exact hInv.memFresh
      · rw [hPc]
        exact hInv.memRan

theorem copyInv_of_reachable
    (hSize : 1 ≤ g.size)
    (hRecords : g.Records)
    (hSlots : ∀ j, j < g.size →
      (g.patches j).ranges = [])
    {state : State (MemRange Bytes) × MergeData}
    (h : (mergeMachine g).Reachable
      (fun state label =>
        ShrinksInTime g.protocolGroup state.1 label) state) :
    CopyInv g state.1 state.2 := by
  refine h.invariant
    (fun state => CopyInv g state.1 state.2) ?_ ?_
  · refine ⟨fun _ _ => rfl, ?_, ?_, ?_⟩
    · intro k hk
      by_cases hMain : k = 0 <;>
        simp [mergeMachine, Machine.withData, protocol,
          State.init, hMain, ranRegion] at hk
    · intro _ k
      simp [mergeMachine, Machine.withData, protocol,
        State.init]
    · simp [mergeMachine, Machine.withData, protocol,
        State.init]
  · intro state label state' hReach hInv hOk hStep
    rcases Machine.withData_step_iff.mp hStep with
      ⟨hControl, hReact⟩
    exact copyInv_step hSize hRecords hSlots hReach.control
      hInv hControl hReact

end Steps

------------------------------------------------------------
-- The Committed Memory
------------------------------------------------------------

/-
  Wherever task `n` and an earlier one write the same byte,
  the last of the earlier writers leaves the value task `n`
  leaves.
-/
def MergeGroup.LastAgreesAt
    (g : MergeGroup)
    (n : Nat) : Prop :=
  ∀ a ∈ callBytes ((g.region n).writeCalls g.memory),
    ∀ k, g.LastWrite n a k →
      (g.region k).body g.memory a =
        (g.region n).body g.memory a

/- The patches of a prefix over the memory of its last task. -/
theorem replay_eq_sequential_iff
    {g : MergeGroup}
    {n : Nat}
    (hClear : ∀ k, k < n + 1 → g.Cleared k) :
    Transaction.replay g.memory (g.transactions n)
          ((g.region n).body g.memory) =
        g.sequential (n + 1) ↔
      g.LastAgreesAt n := by
  have hIndependent := independent_of_cleared hClear
  rw [g.transactions_succ] at hIndependent
  rw [g.sequential_eq_serial, g.transactions_succ]
  refine (Transaction.replay_onto_last_iff g.memory
    (g.transactions n) (g.region n).transaction
    hIndependent).trans ?_
  constructor
  · intro h a ha k hk
    exact h a ha _ (lastWriter_iff.mpr ⟨k, hk, rfl⟩)
  · intro h a ha t ht
    rcases lastWriter_iff.mp ht with ⟨k, hk, rfl⟩
    exact h a ha k hk

/- With its own patch among them the memory is sequential. -/
theorem replay_own_eq_sequential
    {g : MergeGroup}
    {n : Nat}
    (hClear : ∀ k, k < n + 1 → g.Cleared k) :
    Transaction.replay g.memory (g.transactions (n + 1))
        ((g.region n).body g.memory) =
      g.sequential (n + 1) := by
  have hOwn :
      (g.region n).transaction ∈ g.transactions (n + 1) := by
    rw [g.transactions_succ]
    simp
  rw [g.sequential_eq_serial,
    Transaction.serial_eq_replay g.memory _
      (independent_of_cleared hClear)]
  exact Transaction.replay_onto_own g.memory _ hOwn

/- The tasks of a committed group read nothing stale. -/
theorem cleared_of_committed
    {g : MergeGroup}
    {s : State (MemRange Bytes)}
    {d : MergeData}
    {j : Nat}
    (hReach : (protocol g.protocolGroup).Reachable
      (ShrinksInTime g.protocolGroup) s)
    (hVerdict : VerdictInv g s d)
    (hCommitted : Event.groupCommitted j ∈ s.log) :
    ∀ k, k < j + 1 → g.Cleared k := by
  intro k hk i hi
  have hPassed :
      ∀ n, n ≤ j → Event.checkEnded n true ∈ s.log :=
    fun n hn => checked_of_committed hReach hCommitted hn
  exact hVerdict.clear k (hPassed k (by omega)) i hi
    (hPassed i (by omega))

/- The memory of a task that committed the group. -/
theorem committed_memory_iff
    {g : MergeGroup}
    (hSize : 1 ≤ g.size)
    (hRecords : g.Records)
    (hMatch : g.WritesMatch)
    (hSlots : ∀ k, k < g.size →
      (g.patches k).ranges = [])
    {s : State (MemRange Bytes)}
    {d : MergeData}
    (hReach : (mergeMachine g).Reachable
      (fun state label =>
        ShrinksInTime g.protocolGroup state.1 label) (s, d))
    {j : Nat}
    (hCommitted : Event.groupCommitted j ∈ s.log) :
    d.mem j = g.sequential (j + 1) ↔
      Event.dataCommitted j ∈ s.log ∨ g.LastAgreesAt j := by
  have hCopy : CopyInv g s d :=
    copyInv_of_reachable hSize hRecords hSlots hReach
  have hVerdict : VerdictInv g s d :=
    verdictInv_of_reachable hSize hRecords hMatch hReach
  have hClear := cleared_of_committed
    (show (protocol g.protocolGroup).Reachable
      (ShrinksInTime g.protocolGroup) s from hReach.control)
    hVerdict hCommitted
  rw [hCopy.final j hCommitted, patchesLaid]
  split
  · rename_i hOwn
    simp only [hOwn, true_or, iff_true]
    exact replay_own_eq_sequential hClear
  · rename_i hOwn
    simp only [hOwn, false_or]
    exact replay_eq_sequential_iff hClear

/- Bytes that no task of the prefix writes are untouched. -/
theorem committed_memory_frame
    {g : MergeGroup}
    {s : State (MemRange Bytes)}
    {d : MergeData}
    {j a : Nat}
    (hInv : CopyInv g s d)
    (hCommitted : Event.groupCommitted j ∈ s.log)
    (hUnwritten : ∀ k, k ≤ j →
      a ∉ callBytes ((g.region k).writeCalls g.memory)) :
    d.mem j a = g.memory a := by
  rw [hInv.final j hCommitted,
    Transaction.replay_of_unwritten]
  · exact (g.region j).frame g.memory a
      (hUnwritten j (Nat.le_refl j))
  · intro t ht
    unfold MergeGroup.transactions at ht
    rcases List.mem_map.mp ht with ⟨k, hk, rfl⟩
    have hLe : patchesLaid s.log j ≤ j + 1 := by
      unfold patchesLaid
      split <;> omega
    rw [List.mem_range] at hk
    exact hUnwritten k (by omega)

end Cbop
