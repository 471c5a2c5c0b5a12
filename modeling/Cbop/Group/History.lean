import Cbop.Lib.Since
import Cbop.Merge.Patch
import Cbop.Ppr.Steps

/-
  The patches over the groups of one program run.

  The array of patches is shared memory that outlives a
  group. `bop_merge_init` enlarges it when a group is larger
  than the one before it, and clears nothing. A task that
  runs `data_commit` makes a new patch in its slot, and the
  task that commits the group applies and clears the slots
  up to its own.

  A group begins when a process of the group before it has
  become sequential, and the other processes of that group
  are then gone.

  Main declarations:
    * `PatchArray`, `bopMergeInit`
    * `History`, `history`
    * `LeftOver`, `own_patches_iff`
-/

namespace Cbop

variable {ρ : Type}

------------------------------------------------------------
-- The Array of Patches
------------------------------------------------------------

/-
  `patches`, the number of slots that are allocated, and
  `num_patches`.
-/
structure PatchArray where
  slots : Nat → RangeMap Bytes
  allocated : Nat
  numPatches : Nat

/- The first `bop_merge_init` of a program. -/
def bopMergeCreate (gs : Nat) : PatchArray where
  slots := fun _ => initEmptyMap
  allocated := gs
  numPatches := gs

/-
  Every later `bop_merge_init`. The slots that `realloc`
  adds hold what the memory held before, `fresh`.
-/
def bopMergeInit
    (a : PatchArray)
    (gs : Nat)
    (fresh : Nat → RangeMap Bytes) :
    PatchArray :=
  if a.numPatches < gs then
    { slots := fun ppr =>
        if a.allocated ≤ ppr ∧ ppr < gs then fresh ppr
        else a.slots ppr
      allocated := gs
      numPatches := gs }
  else
    { a with numPatches := gs }

------------------------------------------------------------
-- The Run of a Program
------------------------------------------------------------

/-
  What a run does to the patches. A group begins with slots
  from `low` to `high` newly allocated; a task commits a
  patch that is `full` or has no ranges.
-/
inductive PatchEvent where
| began (low high : Nat) (fresh : Nat → RangeMap Bytes)
| committed (ppr : Nat) (full : Bool)
| groupCommitted (specOrder : Nat)

/-
  A patch as `ppr_group_commit` applies it, with the group
  that applies it and the group whose `ppr_commit` made it.
-/
structure Applied where
  patch : RangeMap Bytes
  createdIn : Option Nat
  group : Nat

/-
  The state of a program run: the group that is running and
  its number, the patches with the groups that made them,
  and what happened so far.
-/
structure History (ρ : Type) where
  cfg : Group ρ
  control : State ρ
  group : Nat
  patches : PatchArray
  createdIn : Nat → Option Nat
  applied : List Applied
  events : List PatchEvent

/-
  A step of a process, with its memory and its write map,
  or the next group.
-/
inductive HistoryAct (ρ : Type) where
| act (label : Proc × Act) (mem : Memory)
    (writeMap : RangeMap Bytes)
| begin (cfg : Group ρ) (fresh : Nat → RangeMap Bytes)

/- Task `k` runs `ppr_commit`. -/
def History.commit
    (h : History ρ)
    (k : Nat)
    (mem : Memory)
    (writeMap : RangeMap Bytes) :
    History ρ :=
  { h with
    patches := { h.patches with
      slots := pprCommit h.patches.slots k mem writeMap }
    createdIn := Function.update h.createdIn k (some h.group)
    events := h.events ++
      [.committed k (!writeMap.ranges.isEmpty)] }

/- Task `k` runs `ppr_group_commit`. -/
def History.groupCommit
    (h : History ρ)
    (k : Nat)
    (mem : Memory) :
    History ρ :=
  { h with
    patches := { h.patches with
      slots := (pprGroupCommit h.patches.slots k mem).1 }
    applied := h.applied ++
      (List.range (k + 1)).map (fun ppr =>
        { patch := h.patches.slots ppr
          createdIn := h.createdIn ppr
          group := h.group })
    events := h.events ++ [.groupCommitted k] }

/- What a step of the protocol does to the patches. -/
def History.react
    (h : History ρ)
    (label : Proc × Act)
    (mem : Memory)
    (writeMap : RangeMap Bytes) :
    History ρ :=
  match label with
  | (.task k, .go) =>
      match h.control.pc k with
      | .dataCommit => h.commit k mem writeMap
      | .groupCommit => h.groupCommit k mem
      | _ => h
  | _ => h

/- A process of the group has become sequential. -/
def survived (log : List (Event ρ)) : Bool :=
  log.any (fun e =>
    match e with
    | .becameSeq _ => true
    | _ => false)

/- The next group begins. -/
def History.begin
    (h : History ρ)
    (cfg : Group ρ)
    (fresh : Nat → RangeMap Bytes) :
    History ρ :=
  let patches := bopMergeInit h.patches cfg.size fresh
  { h with
    cfg := cfg
    control := State.init cfg
    group := h.group + 1
    patches := patches
    createdIn := fun ppr =>
      if h.patches.allocated ≤ ppr ∧
          ppr < patches.allocated then
        none
      else
        h.createdIn ppr
    events := h.events ++
      [.began h.patches.allocated patches.allocated fresh] }

/- One step of the program run. -/
def historyStep
    (h : History ρ) :
    HistoryAct ρ → Option (History ρ)
| .act label mem writeMap => do
    let control ← step h.cfg h.control label
    some { h.react label mem writeMap with
      control := control }
| .begin cfg fresh =>
    if survived h.control.log then some (h.begin cfg fresh)
    else none

/- The run of a program from its first group on. -/
def history (first : Group ρ) :
    Machine (History ρ) (HistoryAct ρ) where
  start :=
    { cfg := first
      control := State.init first
      group := 0
      patches := bopMergeCreate first.size
      createdIn := fun _ => none
      applied := []
      events := [] }
  step := historyStep

/- Every patch a group applies is empty or its own. -/
def OwnPatches (h : History ρ) : Prop :=
  ∀ a ∈ h.applied, a.patch.ranges ≠ [] →
    a.createdIn = some a.group

------------------------------------------------------------
-- Patches Left Over
------------------------------------------------------------

namespace PatchEvent

/- The event changes what the slot holds. -/
def touches (ppr : Nat) : PatchEvent → Prop
| .began low high _ => low ≤ ppr ∧ ppr < high
| .committed k _ => k = ppr
| .groupCommitted k => ppr ≤ k

/- The event puts a patch with ranges into the slot. -/
def fills (ppr : Nat) : PatchEvent → Prop
| .committed k full => k = ppr ∧ full = true
| _ => False

/- The event allocates the slot, which is not empty. -/
def allocates (ppr : Nat) : PatchEvent → Prop
| .began low high fresh =>
    (low ≤ ppr ∧ ppr < high) ∧ (fresh ppr).ranges ≠ []
| _ => False

def begins : PatchEvent → Prop
| .began _ _ _ => True
| _ => False

end PatchEvent

/- The last event has the property. -/
def LastEvent
    (p : PatchEvent → Prop)
    (events : List PatchEvent) : Prop :=
  ∃ e, events.getLast? = some e ∧ p e

/- The slot holds a patch with ranges of some task. -/
def Filled
    (ppr : Nat)
    (events : List PatchEvent) : Prop :=
  Since (fun e => ¬e.touches ppr)
    (LastEvent (PatchEvent.fills ppr)) events

/-
  Nothing has touched the slot since a group began and found
  it filled, or since it was allocated with contents.
-/
def LeftOver
    (ppr : Nat)
    (events : List PatchEvent) : Prop :=
  Since (fun e => ¬e.touches ppr)
    (fun early => LastEvent (PatchEvent.allocates ppr) early ∨
      LastEvent PatchEvent.begins early ∧ Filled ppr early)
    events

/- No group commit reaches a slot with a patch left over. -/
def NoneLeftOver (events : List PatchEvent) : Prop :=
  ∀ before k after,
    events = before ++ .groupCommitted k :: after →
      ∀ ppr, ppr ≤ k → ¬LeftOver ppr before

@[simp]
theorem lastEvent_snoc
    {p : PatchEvent → Prop}
    (events : List PatchEvent)
    (e : PatchEvent) :
    LastEvent p (events ++ [e]) ↔ p e := by
  simp [LastEvent]

@[simp]
theorem lastEvent_nil {p : PatchEvent → Prop} :
    ¬LastEvent p [] := by
  simp [LastEvent]

theorem filled_snoc
    {ppr : Nat}
    (events : List PatchEvent)
    (e : PatchEvent) :
    Filled ppr (events ++ [e]) ↔
      e.fills ppr ∨ ¬e.touches ppr ∧ Filled ppr events := by
  unfold Filled
  rw [since_snoc, lastEvent_snoc]

theorem leftOver_snoc
    {ppr : Nat}
    (events : List PatchEvent)
    (e : PatchEvent) :
    LeftOver ppr (events ++ [e]) ↔
      (e.allocates ppr ∨
        e.begins ∧ Filled ppr (events ++ [e])) ∨
      ¬e.touches ppr ∧ LeftOver ppr events := by
  unfold LeftOver
  rw [since_snoc, lastEvent_snoc, lastEvent_snoc]

theorem noneLeftOver_snoc
    (events : List PatchEvent)
    (e : PatchEvent) :
    NoneLeftOver (events ++ [e]) ↔
      NoneLeftOver events ∧
        ∀ k, e = .groupCommitted k →
          ∀ ppr, ppr ≤ k → ¬LeftOver ppr events := by
  constructor
  · intro h
    constructor
    · intro before k after hEq
      subst hEq
      exact h before k (after ++ [e]) (by simp)
    · intro k hEq
      subst hEq
      exact h events k [] (by simp)
  · intro hCase
    rcases hCase with ⟨hOld, hNew⟩
    intro before k after hSplit
    rcases List.eq_nil_or_concat after with
      rfl | ⟨init, last, rfl⟩
    · rcases List.append_inj' hSplit rfl with ⟨rfl, hLast⟩
      rw [List.singleton_inj] at hLast
      exact hNew k hLast
    · rw [List.concat_eq_append, ← List.cons_append,
        ← List.append_assoc] at hSplit
      rcases List.append_inj' hSplit rfl with ⟨hEvents, -⟩
      exact hOld before k init hEvents

------------------------------------------------------------
-- The Slots Follow the Events
------------------------------------------------------------

/-
  The events tell which slots hold a patch, and whether it
  is of an earlier group.
-/
structure SlotInv (h : History ρ) : Prop where
  filled : ∀ ppr, Filled ppr h.events ↔
    (h.patches.slots ppr).ranges ≠ [] ∧
      h.createdIn ppr ≠ none
  leftOver : ∀ ppr, LeftOver ppr h.events ↔
    (h.patches.slots ppr).ranges ≠ [] ∧
      h.createdIn ppr ≠ some h.group
  past : ∀ ppr i, h.createdIn ppr = some i → i ≤ h.group
  applied : OwnPatches h ↔ NoneLeftOver h.events

variable {h : History ρ}

theorem slotInv_commit
    (hInv : SlotInv h)
    (k : Nat)
    (mem : Memory)
    (writeMap : RangeMap Bytes) :
    SlotInv (h.commit k mem writeMap) := by
  have hFull :
      (!writeMap.ranges.isEmpty) = true ↔
        writeMap.ranges ≠ [] := by
    simp
  refine ⟨?_, ?_, ?_, ?_⟩
  · intro ppr
    simp only [History.commit, filled_snoc, pprCommit]
    by_cases hSelf : ppr = k
    · subst hSelf
      simp only [PatchEvent.fills, PatchEvent.touches, hFull,
        Function.update_self, ne_eq, createPatch_eq_nil_iff]
      simp
    · rw [Function.update_of_ne hSelf,
        Function.update_of_ne hSelf, ← hInv.filled]
      simp [PatchEvent.fills, PatchEvent.touches,
        Ne.symm hSelf]
  · intro ppr
    simp only [History.commit, leftOver_snoc, pprCommit]
    by_cases hSelf : ppr = k
    · subst hSelf
      simp [PatchEvent.allocates, PatchEvent.begins,
        PatchEvent.touches]
    · rw [Function.update_of_ne hSelf,
        Function.update_of_ne hSelf, ← hInv.leftOver]
      simp [PatchEvent.allocates, PatchEvent.begins,
        PatchEvent.touches, Ne.symm hSelf]
  · intro ppr i hi
    change Function.update h.createdIn k _ ppr = _ at hi
    change i ≤ h.group
    by_cases hSelf : ppr = k
    · subst hSelf
      simp only [Function.update_self,
        Option.some.injEq] at hi
      omega
    · rw [Function.update_of_ne hSelf] at hi
      exact hInv.past ppr i hi
  · change OwnPatches h ↔ NoneLeftOver (h.events ++ _)
    rw [noneLeftOver_snoc]
    simpa using hInv.applied

/- The patches a group commit applies. -/
theorem ownPatches_groupCommit
    (hInv : SlotInv h)
    (k : Nat)
    (mem : Memory) :
    OwnPatches (h.groupCommit k mem) ↔
      OwnPatches h ∧
        ∀ ppr, ppr ≤ k → ¬LeftOver ppr h.events := by
  simp only [OwnPatches, History.groupCommit,
    List.forall_mem_append, List.forall_mem_map,
    List.mem_range, hInv.leftOver, not_and, not_not]
  simp only [Nat.lt_succ_iff]

theorem slotInv_groupCommit
    (hInv : SlotInv h)
    (k : Nat)
    (mem : Memory) :
    SlotInv (h.groupCommit k mem) := by
  have hSlots :
      ∀ ppr, ((h.groupCommit k mem).patches.slots ppr).ranges =
        if ppr ≤ k then []
        else (h.patches.slots ppr).ranges := by
    intro ppr
    simp only [History.groupCommit, pprGroupCommit]
    split <;> simp [mapClear, RangeMap.ranges]
  refine ⟨?_, ?_, ?_, ?_⟩
  · intro ppr
    rw [hSlots]
    simp only [History.groupCommit, filled_snoc,
      PatchEvent.fills, PatchEvent.touches, false_or,
      hInv.filled]
    split <;> simp_all
  · intro ppr
    rw [hSlots]
    simp only [History.groupCommit, leftOver_snoc,
      PatchEvent.allocates, PatchEvent.begins,
      PatchEvent.touches, false_and, false_or,
      hInv.leftOver]
    split <;> simp_all
  · exact hInv.past
  · rw [ownPatches_groupCommit hInv]
    simp only [History.groupCommit, noneLeftOver_snoc]
    rw [hInv.applied]
    simp

/- The slots after `bop_merge_init`. -/
theorem bopMergeInit_slots
    (a : PatchArray)
    (gs : Nat)
    (fresh : Nat → RangeMap Bytes)
    (ppr : Nat) :
    (bopMergeInit a gs fresh).slots ppr =
      if a.allocated ≤ ppr ∧
          ppr < (bopMergeInit a gs fresh).allocated then
        fresh ppr
      else
        a.slots ppr := by
  unfold bopMergeInit
  split
  · rfl
  · rw [if_neg]
    change ¬(a.allocated ≤ ppr ∧ ppr < a.allocated)
    omega

theorem slotInv_begin
    (hInv : SlotInv h)
    (cfg : Group ρ)
    (fresh : Nat → RangeMap Bytes) :
    SlotInv (h.begin cfg fresh) := by
  have hSlots :=
    bopMergeInit_slots h.patches cfg.size fresh
  refine ⟨?_, ?_, ?_, ?_⟩
  · intro ppr
    simp only [History.begin, filled_snoc, hSlots,
      PatchEvent.fills, PatchEvent.touches, false_or,
      hInv.filled]
    split <;> simp_all
  · intro ppr
    have hPast : h.createdIn ppr ≠ some (h.group + 1) := by
      intro hEq
      have hLe := hInv.past ppr _ hEq
      omega
    simp only [History.begin, leftOver_snoc, filled_snoc,
      hSlots, PatchEvent.allocates, PatchEvent.begins,
      PatchEvent.fills, PatchEvent.touches, false_or,
      true_and, hInv.filled, hInv.leftOver]
    split
    · simp_all
    · rename_i hOut
      simp only [hOut, false_and, false_or, not_false_eq_true,
        true_and, hPast, ne_eq, and_true]
      constructor
      · rintro (⟨hRanges, -⟩ | ⟨hRanges, -⟩) <;> exact hRanges
      · intro hRanges
        by_cases hNone : h.createdIn ppr = none
        · exact .inr ⟨hRanges, by simp [hNone]⟩
        · exact .inl ⟨hRanges, hNone⟩
  · intro ppr i hi
    simp only [History.begin] at hi ⊢
    split at hi
    · cases hi
    · have hLe := hInv.past ppr i hi
      omega
  · change OwnPatches h ↔ NoneLeftOver (h.events ++ _)
    rw [noneLeftOver_snoc]
    simpa using hInv.applied

/- One step of the program run. -/
theorem slotInv_step
    {act : HistoryAct ρ}
    {h' : History ρ}
    (hInv : SlotInv h)
    (hStep : historyStep h act = some h') :
    SlotInv h' := by
  cases act with
  | act label mem writeMap =>
      simp only [historyStep, Option.bind_eq_bind,
        Option.bind_eq_some_iff, Option.some.injEq] at hStep
      rcases hStep with ⟨control, -, rfl⟩
      have hReact : SlotInv (h.react label mem writeMap) := by
        unfold History.react
        split
        · split
          · exact slotInv_commit hInv _ mem writeMap
          · exact slotInv_groupCommit hInv _ mem
          · exact hInv
        · exact hInv
      exact ⟨hReact.filled, hReact.leftOver, hReact.past,
        hReact.applied⟩
  | begin cfg fresh =>
      simp only [historyStep] at hStep
      split at hStep
      · simp only [Option.some.injEq] at hStep
        subst hStep
        exact slotInv_begin hInv cfg fresh
      · cases hStep

theorem slotInv_of_reachable
    {first : Group ρ}
    (hReach : (history first).Reachable Machine.anyStep h) :
    SlotInv h := by
  apply hReach.invariant SlotInv
  · refine ⟨?_, ?_, ?_, ?_⟩
    · intro ppr
      simp [history, Filled, since_nil]
    · intro ppr
      simp [history, LeftOver, since_nil, bopMergeCreate]
    · simp [history]
    · simp [history, OwnPatches, NoneLeftOver]
  · intro h act h' _ hInv _ hStep
    exact slotInv_step hInv hStep

/- A group of tasks that all write one byte. -/
def byteGroup (size : Nat) : Group (MemRange Bytes) where
  size := size
  writes := fun _ => (recordAll [(1, 1)]).ranges
  atomicSet := false
  mainLeads := true

/- Task `k` goes on for some steps, having written a byte. -/
def writes
    (k steps : Nat) :
    List (HistoryAct (MemRange Bytes)) :=
  List.replicate steps
    (.act (.task k, .go) (fun _ => 1) (recordAll [(1, 1)]))

/- The two tasks of a group commit, the second for both. -/
def pairCommits : List (HistoryAct (MemRange Bytes)) :=
  writes 0 11 ++ writes 1 15

/-
  Of three tasks two commit their data, and the understudy
  gets to the end first.
-/
def tripleAbandoned : List (HistoryAct (MemRange Bytes)) :=
  writes 0 10 ++ writes 1 11 ++
    List.replicate 7
      (.act (.undy, .go) (fun _ => 0) initEmptyMap)

/- The patches applied are empty or of the same group. -/
def ownApplied (h : History (MemRange Bytes)) : Bool :=
  h.applied.all (fun a =>
    a.patch.ranges.isEmpty || a.createdIn = some a.group)

end Cbop
