import Cbop.Group.History
import Cbop.Group.Misspeculation
import Cbop.Ppr.Survivor

/-
  The execution of a program of many regions, group after
  group.

  A group runs the next regions in parallel, and its
  understudy runs them one by one, on a copy of the memory
  that MAIN left. The process that becomes sequential goes
  on as MAIN of the next group, with its memory and its
  `bop_stats`. The other processes are then gone.

  A group may end in three ways: all its tasks commit, a
  prefix of them does after a failure, or the understudy
  wins. Each ends with the memory of the sequential
  execution, but for the writes of a committing task that
  has made no data commit of its own.

  Main declarations:
    * `BopStats`, `undyReact`, `statsReact`
    * `Execution`, `execution`
    * `UndyInv`, `StatsInv`
    * `ExecutionInv`, `executionInv_of_reachable`
    * `execution_sequential`
-/

namespace Cbop

------------------------------------------------------------
-- The Understudy's Memory and the Counters
------------------------------------------------------------

/- The counters of `stats_t` that count regions. -/
structure BopStats where
  numBySpec : Nat
  numByMain : Nat
  numByUndy : Nat
deriving DecidableEq, Repr

def BopStats.total (stats : BopStats) : Nat :=
  stats.numBySpec + stats.numByMain + stats.numByUndy

/-
  The memory of the understudy after a step. It is forked
  with MAIN's memory at the end of MAIN's region, and one
  step of `running` is one more region.
-/
def undyReact
    (g : MergeGroup)
    (s : State (MemRange Bytes))
    (label : Proc × Act)
    (d : MergeData)
    (mem : Memory) :
    Memory :=
  match label with
  | (.task 0, .go) =>
      match s.pc 0 with
      | .region => (g.region 0).body (d.mem 0)
      | _ => mem
  | (.undy, .go) =>
      match s.undy with
      | .running => (g.region (s.undyPprCount + 1)).body mem
      | _ => mem
  | _ => mem

/- The counters of every process after a step. -/
def statsReact
    (s : State (MemRange Bytes))
    (label : Proc × Act)
    (stats : Proc → BopStats) :
    Proc → BopStats :=
  match label with
  | (.task k, .go) =>
      match s.pc k with
      | .succFini =>
          let own := stats (.task k)
          Function.update stats (.task k) { own with
            numBySpec := own.numBySpec + k
            numByMain := own.numByMain + 1 }
      | _ => stats
  | (.undy, .go) =>
      let own := stats .undy
      match s.undy with
      | .created =>
          Function.update stats .undy { own with
            numByMain := own.numByMain + 1 }
      | .setSeq =>
          Function.update stats .undy { own with
            numByUndy := own.numByUndy + s.undyPprCount }
      | _ => stats
  | _ => stats

------------------------------------------------------------
-- The Execution
------------------------------------------------------------

/-
  The group that is running and the index of its first
  region, the processes with what they hold, and the size of
  the array of patches.
-/
structure Execution where
  first : Nat
  group : MergeGroup
  control : State (MemRange Bytes)
  data : MergeData
  undyMem : Memory
  stats : Proc → BopStats
  allocated : Nat
  numPatches : Nat

/-
  A step of a process, or the begin of the next group in a
  process that is sequential. The slots of patches that are
  newly allocated hold `fresh`.
-/
inductive ExecutionAct where
| act (label : Proc × Act)
| begin (proc : Proc) (size : Nat) (mainLeads : Bool)
    (fresh : Nat → RangeMap Bytes)

/- A group of the regions from `first` on. -/
def groupAt
    (regions : Nat → Region)
    (first size : Nat)
    (mainLeads : Bool)
    (memory : Memory)
    (patches : Nat → RangeMap Bytes) :
    MergeGroup where
  size := size
  region := fun k => regions (first + k)
  memory := memory
  pprIndex := first + 1
  patches := patches
  atomicSet := false
  mainLeads := mainLeads

namespace Execution

/- The memory of a process. -/
def memoryOf (e : Execution) : Proc → Memory
| .task k => e.data.mem k
| .undy => e.undyMem

/- The regions of its group a process has behind it. -/
def completed (e : Execution) : Proc → Nat
| .task k => k + 1
| .undy => e.control.undyPprCount + 1

/-
  The group starts, in a process with memory `memory` and
  counters `stats`.
-/
def startGroup
    (regions : Nat → Region)
    (first size : Nat)
    (mainLeads : Bool)
    (memory : Memory)
    (stats : BopStats)
    (patches : PatchArray) :
    Execution :=
  let g := groupAt regions first size mainLeads memory
    patches.slots
  { first := first
    group := g
    control := (mergeMachine g).start.1
    data := (mergeMachine g).start.2
    undyMem := memory
    stats := fun _ => stats
    allocated := patches.allocated
    numPatches := patches.numPatches }

/- The group that a sequential process begins. -/
def next
    (regions : Nat → Region)
    (e : Execution)
    (proc : Proc)
    (size : Nat)
    (mainLeads : Bool)
    (fresh : Nat → RangeMap Bytes) :
    Execution :=
  startGroup regions (e.first + e.completed proc) size
    mainLeads (e.memoryOf proc) (e.stats proc)
    (bopMergeInit
      { slots := e.data.patches
        allocated := e.allocated
        numPatches := e.numPatches }
      size fresh)

end Execution

/- One step of the execution. -/
def executionStep
    (regions : Nat → Region)
    (e : Execution) :
    ExecutionAct → Option Execution
| .act label => do
    let (control, data) ←
      (mergeMachine e.group).step (e.control, e.data) label
    some { e with
      control := control
      data := data
      undyMem :=
        undyReact e.group e.control label e.data e.undyMem
      stats := statsReact e.control label e.stats }
| .begin proc size mainLeads fresh =>
    if e.control.log.contains (.becameSeq proc) then
      some (e.next regions proc size mainLeads fresh)
    else none

/- The execution of a program from its first group on. -/
def execution
    (regions : Nat → Region)
    (memory : Memory)
    (size : Nat)
    (mainLeads : Bool) :
    Machine Execution ExecutionAct where
  start :=
    .startGroup regions 0 size mainLeads memory ⟨0, 0, 0⟩
      (bopMergeCreate size)
  step := executionStep regions

/- The memory after the first `n` regions, one by one. -/
def runRegions
    (regions : Nat → Region)
    (n : Nat)
    (m : Memory) :
    Memory :=
  (List.range n).foldl (fun m k => (regions k).body m) m

/- What is asked of a group when it begins. -/
structure GroupOk (g : MergeGroup) : Prop where
  size : 1 ≤ g.size
  records : g.Records
  writesMatch : g.WritesMatch
  slots : ∀ k, k < g.size → (g.patches k).ranges = []

/-
  A task that committed the group kept its own last writes:
  it has committed its data before, or agrees with the tasks
  before it.
-/
def Execution.KeepsLast (e : Execution) : Proc → Prop
| .task k => Event.dataCommitted k ∈ e.control.log ∨
    e.group.LastAgreesAt k
| .undy => True

/-
  The size of a group shrinks in time, and a group begins
  where the one before it lost nothing.
-/
def Execution.Sound
    (regions : Nat → Region)
    (e : Execution) :
    ExecutionAct → Prop
| .act label =>
    ShrinksInTime e.group.protocolGroup e.control label
| .begin proc size mainLeads fresh =>
    GroupOk (e.next regions proc size mainLeads fresh).group ∧
      e.KeepsLast proc

------------------------------------------------------------
-- Sequential Execution
------------------------------------------------------------

theorem MergeGroup.sequential_succ
    (g : MergeGroup)
    (n : Nat) :
    g.sequential (n + 1) =
      (g.region n).body (g.sequential n) := by
  simp [sequential, List.range_succ]

/- A group's sequential execution is one of the program. -/
theorem sequential_eq_runRegions
    {regions : Nat → Region}
    {g : MergeGroup}
    {first : Nat}
    {m₀ : Memory}
    (hRegion : ∀ k, g.region k = regions (first + k))
    (hMemory : g.memory = runRegions regions first m₀)
    (n : Nat) :
    g.sequential n = runRegions regions (first + n) m₀ := by
  induction n with
  | zero => exact hMemory
  | succ n ih =>
      rw [g.sequential_succ, ih, hRegion]
      simp [runRegions, ← Nat.add_assoc, List.range_succ]

------------------------------------------------------------
-- The Understudy
------------------------------------------------------------

section Invariants

variable {g : MergeGroup}
variable {s s' : State (MemRange Bytes)}
variable {d : MergeData}
variable {label : Proc × Act}

/- The memory of an understudy is that of its regions. -/
structure UndyInv
    (g : MergeGroup)
    (s : State (MemRange Bytes))
    (mem : Memory) : Prop where
  early : s.undy.early = true → s.undyPprCount = 0
  memory : s.undy ≠ .unborn →
    mem = g.sequential (s.undyPprCount + 1)

/- Steps of tasks that do not fork the understudy. -/
theorem undyReact_of_task
    {k : Nat}
    {act : Act}
    {mem : Memory}
    (h : ¬(k = 0 ∧ act = .go ∧ s.pc k = .region)) :
    undyReact g s (.task k, act) d mem = mem := by
  by_cases hk : k = 0
  · subst hk
    by_cases hAct : act = .go
    · subst hAct
      simp only [undyReact]
      split
      · rename_i hPc
        exact absurd ⟨rfl, rfl, hPc⟩ h
      · rfl
    · cases act <;> first | rfl | contradiction
  · cases k with
    | zero => contradiction
    | succ n => cases act <;> rfl

/- One step of the understudy on its memory. -/
theorem undyInv_undy
    {act : Act}
    {mem : Memory}
    (hInv : UndyInv g s mem)
    (h : UndyMove g.protocolGroup s act s') :
    UndyInv g s' (undyReact g s (.undy, act) d mem) := by
  have hStay :
      s.undy ≠ .running →
        undyReact g s (.undy, act) d mem = mem := by
    intro hNot
    cases act <;> simp only [undyReact]
  -- the understudy goes on without running a region
  have hKeep :
      undyReact g s (.undy, act) d mem = mem →
      s.undy ≠ .unborn → s'.undy.early = false →
      s'.undyPprCount = s.undyPprCount →
        UndyInv g s' (undyReact g s (.undy, act) d mem) := by
    intro hMem hBorn hLate hCount
    rw [hMem]
    refine ⟨by simp [hLate], fun _ => ?_⟩
    rw [hCount]
    exact hInv.memory hBorn
  have hNext :
      s.undy = .running →
        (g.region (s.undyPprCount + 1)).body mem =
          g.sequential (s.undyPprCount + 1 + 1) := by
    intro hRunning
    rw [g.sequential_succ,
      hInv.memory (by simp [hRunning])]
  have hAlive :
      undyAlive s.undy = true → s.undy ≠ .unborn := by
    intro hLives hUnborn
    simp [hUnborn, undyAlive] at hLives
  cases h with
  | created hUndy =>
      exact hKeep (hStay (by simp [hUndy])) (by simp [hUndy])
        rfl rfl
  | goOn hUndy hCount =>
      refine ⟨by simp [hUndy, UndyPc.early], fun _ => ?_⟩
      simp only [undyReact, hUndy]
      exact hNext hUndy
  | finishLine hUndy hCount =>
      refine ⟨by simp [UndyPc.early], fun _ => ?_⟩
      simp only [undyReact, hUndy]
      exact hNext hUndy
  | killSpecs hUndy =>
      exact hKeep (hStay (by simp [hUndy])) (by simp [hUndy])
        rfl rfl
  | killMain hUndy hUsr =>
      exact hKeep (hStay (by simp [hUndy])) (by simp [hUndy])
        rfl rfl
  | succFini hUndy =>
      exact hKeep (hStay (by simp [hUndy])) (by simp [hUndy])
        rfl rfl
  | setSeq hUndy =>
      exact hKeep (hStay (by simp [hUndy])) (by simp [hUndy])
        rfl rfl
  | usr1 hUsr hLives =>
      exact hKeep rfl (hAlive hLives) rfl rfl
  | usr2 hLives => exact ⟨hInv.early, hInv.memory⟩
  | die hLives =>
      exact hKeep rfl (hAlive hLives) rfl rfl

/- Signals for a task leave the understudy alone. -/
theorem undyInv_signal
    {mem : Memory}
    (hInv : UndyInv g s mem)
    (hUndy : s'.undy = s.undy)
    (hCount : s'.undyPprCount = s.undyPprCount) :
    UndyInv g s' mem := by
  refine ⟨?_, ?_⟩
  · rw [hUndy, hCount]
    exact hInv.early
  · rw [hUndy, hCount]
    exact hInv.memory

theorem undyInv_step
    {mem : Memory}
    (hSurvivor : SurvivorInv s)
    (hMain : s.pc 0 = .region → d.mem 0 = g.memory)
    (hInv : UndyInv g s mem)
    (hStep : step g.protocolGroup s label = some s') :
    UndyInv g s' (undyReact g s label d mem) := by
  cases stepped_of_step hStep with
  | undy hUndy => exact undyInv_undy hInv hUndy
  | @usr1 k hUsr hAlive =>
      rw [undyReact_of_task (by simp)]
      have hSame := taskUsr1_undy s k
      exact undyInv_signal hInv hSame.1 hSame.2.1
  | @usr2 k hUsr hAlive =>
      rw [undyReact_of_task (by simp)]
      exact undyInv_signal hInv rfl rfl
  | @move k act move s₁ hMove hApply =>
      have hUndy := apply_undy hApply
      have hCount := apply_undyPprCount hApply
      by_cases hSpawn : move.2.1 = .spawnUndy
      · rcases hMove.spawns_iff.mp hSpawn with
          ⟨rfl, rfl, hPc⟩
        have hUnborn : s.undy = .unborn :=
          hSurvivor.unborn (by rw [hPc]; rfl)
        have hZero : s.undyPprCount = 0 :=
          hInv.early (by rw [hUnborn]; rfl)
        refine ⟨fun _ => hCount.trans hZero, fun _ => ?_⟩
        change _ = g.sequential (s₁.undyPprCount + 1)
        rw [hCount, hZero, g.sequential_succ]
        simp only [undyReact, hPc, hMain hPc]
        rfl
      · rw [if_neg hSpawn] at hUndy
        rw [undyReact_of_task
          (fun h => hSpawn (hMove.spawns_iff.mpr h))]
        exact undyInv_signal hInv hUndy hCount

------------------------------------------------------------
-- The Counters
------------------------------------------------------------

/-
  The regions a process has counted since the group began:
  all it has completed once it is sequential.
-/
structure StatsInv
    (base : Nat)
    (s : State (MemRange Bytes))
    (stats : Proc → BopStats) : Prop where
  task : ∀ k, (stats (.task k)).total =
    if Event.becameSeq (.task k) ∈ s.log then base + (k + 1)
    else base
  early : s.undy.early = true → (stats .undy).total = base
  running : s.undy.early = false → s.undy ≠ .conceded →
    s.undy ≠ .died → s.undy ≠ .seq →
      (stats .undy).total = base + 1
  seq : s.undy = .seq →
    (stats .undy).total = base + (s.undyPprCount + 1)

/- The counters after a step of a task. -/
theorem statsReact_task
    {k : Nat}
    {stats : Proc → BopStats}
    (hPc : s.pc k = .succFini) :
    statsReact s (.task k, .go) stats =
      Function.update stats (.task k)
        { stats (.task k) with
          numBySpec := (stats (.task k)).numBySpec + k
          numByMain := (stats (.task k)).numByMain + 1 } := by
  simp only [statsReact, hPc]

theorem statsReact_of_task
    {k : Nat}
    {act : Act}
    {stats : Proc → BopStats}
    (h : ¬(act = .go ∧ s.pc k = .succFini)) :
    statsReact s (.task k, act) stats = stats := by
  by_cases hAct : act = .go
  · subst hAct
    simp only [statsReact]
    split
    · rename_i hPc
      exact absurd ⟨rfl, hPc⟩ h
    · rfl
  · cases act <;> first | rfl | contradiction

/- A step that counts nothing and keeps the understudy. -/
theorem statsInv_keep
    {base : Nat}
    {stats : Proc → BopStats}
    (hInv : StatsInv base s stats)
    (hUndy : s'.undy = s.undy)
    (hCount : s'.undyPprCount = s.undyPprCount)
    (hLog : ∀ k, Event.becameSeq (.task k) ∈ s'.log ↔
      Event.becameSeq (.task k) ∈ s.log) :
    StatsInv base s' stats := by
  refine ⟨?_, ?_, ?_, ?_⟩
  · intro k
    simp only [hLog]
    exact hInv.task k
  · rw [hUndy]
    exact hInv.early
  · rw [hUndy]
    exact hInv.running
  · rw [hUndy, hCount]
    exact hInv.seq

/- One step of the understudy on its counters. -/
theorem statsInv_undy
    {base : Nat}
    {act : Act}
    {stats : Proc → BopStats}
    (hInv : StatsInv base s stats)
    (h : UndyMove g.protocolGroup s act s') :
    StatsInv base s' (statsReact s (.undy, act) stats) := by
  have hTask :
      ∀ k, statsReact s (.undy, act) stats (.task k) =
        stats (.task k) := by
    intro k
    cases act <;> simp only [statsReact]
    cases hUndy : s.undy <;> simp
  have hLog :
      ∀ k, Event.becameSeq (.task k) ∈ s'.log ↔
        Event.becameSeq (.task k) ∈ s.log :=
    fun k => mem_log_of_aside h.frame.2.2.2 (by simp)
  have hTasks :
      ∀ k, (statsReact s (.undy, act) stats
          (.task k)).total =
        if Event.becameSeq (.task k) ∈ s'.log then
          base + (k + 1)
        else base := by
    intro k
    simp only [hTask, hLog]
    exact hInv.task k
  have hRunning :
      s.undy.early = false → s.undy ≠ .conceded →
        s.undy ≠ .died → s.undy ≠ .seq →
          (stats .undy).numBySpec + (stats .undy).numByMain +
            (stats .undy).numByUndy = base + 1 :=
    hInv.running
  refine ⟨hTasks, ?_, ?_, ?_⟩
  all_goals
    cases h with
    | created hUndy =>
        have hEarly := hInv.early (by rw [hUndy]; rfl)
        simp_all [statsReact, UndyPc.early, BopStats.total]
        try omega
    | usr2 hAlive =>
        first
        | exact hInv.early
        | exact hInv.running
        | exact hInv.seq
    | _ =>
        simp_all [statsReact, UndyPc.early, BopStats.total,
          State.undyUsr1]
        try omega

/- A task becomes sequential and counts its group. -/
theorem statsInv_succFini
    {base k : Nat}
    {stats : Proc → BopStats}
    (hSurvivor : SurvivorInv s)
    (hInv : StatsInv base s stats)
    (hPc : s.pc k = .succFini)
    (hUndy : s'.undy = s.undy)
    (hCount : s'.undyPprCount = s.undyPprCount)
    (hLog : ∀ j, Event.becameSeq (.task j) ∈ s'.log ↔
      Event.becameSeq (.task j) ∈ s.log ∨ j = k) :
    StatsInv base s'
      (statsReact s (.task k, .go) stats) := by
  have hNew : Event.becameSeq (.task k) ∉ s.log := by
    intro hOld
    have hSeq := hSurvivor.seqTask k hOld
    simp [hPc, isSeq] at hSeq
  rw [statsReact_task hPc]
  refine ⟨?_, ?_, ?_, ?_⟩
  · intro j
    by_cases hSelf : j = k
    · subst hSelf
      have hOwn := hInv.task j
      rw [if_neg hNew] at hOwn
      rw [Function.update_self,
        if_pos ((hLog j).mpr (.inr rfl))]
      simp only [BopStats.total] at hOwn ⊢
      omega
    · rw [Function.update_of_ne (by simpa using hSelf)]
      simp only [hLog, hSelf, or_false]
      exact hInv.task j
  all_goals
    rw [hUndy, Function.update_of_ne (by simp)]
  · exact hInv.early
  · exact hInv.running
  · rw [hCount]
    exact hInv.seq

theorem statsInv_step
    {base : Nat}
    {stats : Proc → BopStats}
    (hSurvivor : SurvivorInv s)
    (hInv : StatsInv base s stats)
    (hStep : step g.protocolGroup s label = some s') :
    StatsInv base s' (statsReact s label stats) := by
  cases stepped_of_step hStep with
  | undy hUndy => exact statsInv_undy hInv hUndy
  | @usr1 k hUsr hAlive =>
      rw [statsReact_of_task (by simp)]
      rcases taskUsr1_undy s k with ⟨hUndy, hCount, hLog⟩
      exact statsInv_keep hInv hUndy hCount
        (fun j => by rw [hLog])
  | @usr2 k hUsr hAlive =>
      rw [statsReact_of_task (by simp)]
      exact statsInv_keep hInv rfl rfl (fun _ => Iff.rfl)
  | @move k act move s₁ hMove hApply =>
      have hUndy := apply_undy hApply
      have hCount := apply_undyPprCount hApply
      have hMem :
          ∀ j, Event.becameSeq (.task j) ∈
              (s.moved s₁ k move).log ↔
            Event.becameSeq (.task j) ∈ s.log ∨
              (j = k ∧ act = .go ∧ s.pc k = .succFini) := by
        intro j
        change _ ∈ s.log ++ move.2.2 ↔ _
        rw [List.mem_append, hMove.becameSeq_iff,
          Proc.task.injEq]
      by_cases hSeq : act = .go ∧ s.pc k = .succFini
      · rcases hSeq with ⟨rfl, hPc⟩
        have hNot : move.2.1 ≠ .spawnUndy := by
          intro hSpawn
          have hRegion := (hMove.spawns_iff.mp hSpawn).2.2
          rw [hPc] at hRegion
          cases hRegion
        rw [if_neg hNot] at hUndy
        exact statsInv_succFini hSurvivor hInv hPc hUndy
          hCount (fun j => by simp [hMem, hPc])
      · rw [statsReact_of_task hSeq]
        have hLog :
            ∀ j, Event.becameSeq (.task j) ∈
                (s.moved s₁ k move).log ↔
              Event.becameSeq (.task j) ∈ s.log := by
          intro j
          rw [hMem]
          exact or_iff_left (fun h => hSeq h.2)
        by_cases hSpawn : move.2.1 = .spawnUndy
        · rcases hMove.spawns_iff.mp hSpawn with
            ⟨rfl, -, hPc⟩
          have hUnborn : s.undy = .unborn :=
            hSurvivor.unborn (by rw [hPc]; rfl)
          have hNew :
              (s.moved s₁ 0 move).undy = .created := by
            rw [if_pos hSpawn] at hUndy
            exact hUndy
          refine ⟨?_, fun _ => ?_, ?_, ?_⟩
          · intro j
            simp only [hLog]
            exact hInv.task j
          · exact hInv.early (by rw [hUnborn]; rfl)
          · simp [hNew, UndyPc.early]
          · simp [hNew]
        · rw [if_neg hSpawn] at hUndy
          exact statsInv_keep hInv hUndy hCount hLog

end Invariants

------------------------------------------------------------
-- The Whole Execution
------------------------------------------------------------

/- What holds of the group that is running. -/
structure ExecutionInv
    (regions : Nat → Region)
    (m₀ : Memory)
    (e : Execution) : Prop where
  ok : GroupOk e.group
  region : ∀ k, e.group.region k = regions (e.first + k)
  memory : e.group.memory = runRegions regions e.first m₀
  run : (mergeMachine e.group).Reachable
    (fun state label =>
      ShrinksInTime e.group.protocolGroup state.1 label)
    (e.control, e.data)
  undy : UndyInv e.group e.control e.undyMem
  stats : StatsInv e.first e.control e.stats

section Whole

variable {regions : Nat → Region}
variable {m₀ : Memory}
variable {e e' : Execution}

/- What a process has that became sequential. -/
theorem ExecutionInv.survivor
    (hInv : ExecutionInv regions m₀ e)
    {p : Proc}
    (hSeq : Event.becameSeq p ∈ e.control.log) :
    (e.memoryOf p =
        runRegions regions (e.first + e.completed p) m₀ ↔
      e.KeepsLast p) ∧
      (e.stats p).total = e.first + e.completed p := by
  have hControl :
      (protocol e.group.protocolGroup).Reachable
        (ShrinksInTime e.group.protocolGroup) e.control :=
    hInv.run.control
  have hSurvivor := survivorInv_of_reachable hControl
  rw [← sequential_eq_runRegions hInv.region hInv.memory]
  cases p with
  | task k =>
      have hPc : isSeq (e.control.pc k) = true :=
        hSurvivor.seqTask k hSeq
      have hCommitted :
          Event.groupCommitted k ∈ e.control.log := by
        apply (proceedInv_of_reachable hControl).committer
        cases hAt : e.control.pc k <;>
          simp_all [isSeq, committer]
      refine ⟨?_, ?_⟩
      · exact committed_memory_iff hInv.ok.size
          hInv.ok.records hInv.ok.writesMatch hInv.ok.slots
          hInv.run hCommitted
      · have hTotal := hInv.stats.task k
        rw [if_pos hSeq] at hTotal
        exact hTotal
  | undy =>
      have hUndy : e.control.undy = .seq :=
        hSurvivor.seqUndy hSeq
      refine ⟨?_, hInv.stats.seq hUndy⟩
      refine iff_of_true ?_ trivial
      exact hInv.undy.memory (by simp [hUndy])

/- A group that begins is at its start. -/
theorem executionInv_start
    {first size : Nat}
    {mainLeads : Bool}
    {memory : Memory}
    {stats : BopStats}
    {patches : PatchArray}
    (hOk : GroupOk (Execution.startGroup regions first size
      mainLeads memory stats patches).group)
    (hMemory : memory = runRegions regions first m₀)
    (hStats : stats.total = first) :
    ExecutionInv regions m₀
      (.startGroup regions first size mainLeads memory stats
        patches) := by
  refine ⟨hOk, fun _ => rfl, hMemory, .start, ?_, ?_⟩
  · exact ⟨fun _ => rfl, fun h => absurd rfl h⟩
  · refine ⟨?_, fun _ => hStats, ?_, ?_⟩
    · intro k
      simpa [Execution.startGroup, mergeMachine,
        Machine.withData, protocol, State.init] using hStats
    · intro hEarly
      cases hEarly
    · intro hSeq
      cases hSeq

theorem executionInv_step
    {act : ExecutionAct}
    (hInv : ExecutionInv regions m₀ e)
    (hOk : e.Sound regions act)
    (hStep : executionStep regions e act = some e') :
    ExecutionInv regions m₀ e' := by
  cases act with
  | act label =>
      simp only [executionStep, Option.bind_eq_bind,
        Option.bind_eq_some_iff, Option.some.injEq,
        Prod.exists] at hStep
      rcases hStep with ⟨control, data, hMerge, rfl⟩
      have hControl :
          (protocol e.group.protocolGroup).Reachable
            (ShrinksInTime e.group.protocolGroup)
            e.control :=
        hInv.run.control
      have hSurvivor := survivorInv_of_reachable hControl
      have hCopy : CopyInv e.group e.control e.data :=
        copyInv_of_reachable hInv.ok.size hInv.ok.records
          hInv.ok.slots hInv.run
      have hNext := (Machine.withData_step_iff.mp hMerge).1
      refine ⟨hInv.ok, hInv.region, hInv.memory,
        .step hInv.run hOk hMerge, ?_, ?_⟩
      · apply undyInv_step hSurvivor ?_ hInv.undy hNext
        intro hPc
        exact hCopy.memFresh 0 (by rw [hPc]; rfl)
      · exact statsInv_step hSurvivor hInv.stats hNext
  | «begin» proc size mainLeads fresh =>
      simp only [executionStep,
        Option.ite_none_right_eq_some,
        Option.some.injEq, List.contains_iff_mem] at hStep
      rcases hStep with ⟨hSeq, rfl⟩
      rcases hOk with ⟨hGroup, hKeeps⟩
      rcases hInv.survivor hSeq with ⟨hMemory, hTotal⟩
      exact executionInv_start hGroup (hMemory.mpr hKeeps)
        hTotal

theorem executionInv_of_reachable
    {size : Nat}
    {mainLeads : Bool}
    (hFirst : GroupOk
      (execution regions m₀ size mainLeads).start.group)
    (h : (execution regions m₀ size mainLeads).Reachable
      (Execution.Sound regions) e) :
    ExecutionInv regions m₀ e := by
  apply h.invariant (ExecutionInv regions m₀)
  · exact executionInv_start hFirst rfl rfl
  · intro e act e' _ hInv hOk hStep
    exact executionInv_step hInv hOk hStep

end Whole

/- The only range of the map of one access. -/
theorem ranges_single
    {addr : Nat}
    {r : MemRange Bytes}
    (hRange : r ∈ (recordAll [(addr, 1)]).ranges) :
    r.base = addr ∧ r.size = 1 := by
  have hOne :
      (recordAll [(addr, 1)]).ranges =
        [newNode addr 1 none] := rfl
  rw [hOne, List.mem_singleton] at hRange
  subst hRange
  exact ⟨rfl, rfl⟩

/- A group of copying regions, from any of them on. -/
theorem groupOk_copies
    {first size : Nat}
    {mainLeads : Bool}
    {memory : Memory}
    {patches : Nat → RangeMap Bytes}
    (hSize : 1 ≤ size)
    (hSlots : ∀ k, k < size → (patches k).ranges = []) :
    GroupOk (groupAt copyGroup.region first size mainLeads
      memory patches) := by
  refine ⟨hSize, ⟨?_, ?_⟩, ?_, hSlots⟩
  · intro k hk
    rcases copyGroup_region (first + k) with
      ⟨src, dst, hSrc, hDst, hRegion⟩
    simp only [groupAt, hRegion]
    exact recordsExactly_single hSrc
  · intro k hk
    rcases copyGroup_region (first + k) with
      ⟨src, dst, hSrc, hDst, hRegion⟩
    simp only [groupAt, hRegion]
    exact recordsExactly_single hDst
  · intro i hi j hj hNe r hr s hs
    rcases copyGroup_region (first + i) with
      ⟨src, left, -, -, hLeft⟩
    rcases copyGroup_region (first + j) with
      ⟨src', right, -, -, hRight⟩
    simp only [MergeGroup.writeMap, groupAt, hLeft, hRight]
      at hr hs
    rcases ranges_single hr with ⟨hBase, hOne⟩
    rcases ranges_single hs with ⟨hOther, hSame⟩
    by_cases hEq : left = right
    · left
      exact ⟨by omega, by omega⟩
    · right
      intro hMeets
      rcases hMeets with ⟨hBelow, hAbove⟩
      omega

/-
  Task 2 fails its check and task 1 commits. It begins the
  second group, whose understudy wins.
-/
def untilUndyWins : List ExecutionAct :=
  let untilSeq :=
    untilCopiesFail ++ List.replicate 6 (.task 2, .go) ++
      List.replicate 8 (.task 1, .go) ++ [(.undy, .go)] ++
      List.replicate 2 (.task 1, .go) ++ [(.undy, .usr1)] ++
      List.replicate 2 (.task 1, .go)
  let untilUndySeq :=
    List.replicate 2 (Proc.task 0, Act.go) ++
      List.replicate 6 (.undy, .go)
  untilSeq.map .act ++
    [.begin (.task 1) 2 true (fun _ => initEmptyMap)] ++
    untilUndySeq.map .act

/- A test for `Execution.Sound` of copying regions. -/
def soundTest (e : Execution) : ExecutionAct → Bool
| .act label =>
    shrinksTest e.group.protocolGroup e.control label
| .begin proc size mainLeads fresh =>
    let next :=
      e.next copyGroup.region proc size mainLeads fresh
    1 ≤ size && proc == .task 1 &&
      e.control.log.contains (.dataCommitted 1) &&
      (List.range size).all (fun k =>
        (next.group.patches k).ranges == [])

theorem sound_of_test
    {m₀ : Memory}
    {e : Execution}
    {act : ExecutionAct}
    (hInv : ExecutionInv copyGroup.region m₀ e)
    (h : soundTest e act = true) :
    e.Sound copyGroup.region act := by
  cases act with
  | act label =>
      exact shrinksInTime_of_test hInv.ok.size
        (birthInv_of_reachable hInv.run.control) h
  | «begin» proc size mainLeads fresh =>
      simp only [soundTest, Bool.and_eq_true,
        decide_eq_true_eq, beq_iff_eq, List.all_eq_true,
        List.contains_iff_mem, List.mem_range] at h
      rcases h with ⟨⟨⟨hSize, rfl⟩, hData⟩, hSlots⟩
      exact ⟨groupOk_copies hSize hSlots, .inl hData⟩

end Cbop
