import Cbop.Group.Ordered
import Cbop.Ppr.FailedSpeculation

/-
  Whether what a task received and used was validated when
  its group commits.

  The check of a task notes which received ranges the task
  has read. Its data commit compares each of them with the
  patch of the sender, which is there only if the sender has
  made it before. The last task of the group makes no data
  commit, so that nothing it used is compared.

  Main declarations:
    * `PortGroup`, `PortData`, `portMachine`
    * `PortStep`, `portStep_of_react`
    * `PortInv`, `portInv_step`
    * `used_validated`
-/

namespace Cbop

------------------------------------------------------------
-- The Machine
------------------------------------------------------------

/-
  A group and its program. `work k n` is the step that task
  `k` makes in its own code after `n` others, on the switch
  board and what it holds; `none` while it waits. `writes`
  is what is left in the tasks' write maps when they are
  checked, and `spoiled` what a check that aborts leaves of
  the write union.
-/
structure PortGroup where
  size : Nat
  pprIndex : Nat
  boardSize : Nat
  memory : Memory
  patches : Nat → RangeMap Bytes
  work : Nat → Nat → SwitchBoard × TaskData →
    Option (SwitchBoard × TaskData)
  writes : Nat → List (MemRange Bytes)
  spoiled : Nat → RangeMap Bytes → RangeMap Bytes
  atomicSet : Bool
  mainLeads : Bool
  intSize : size < 2 ^ 31

def PortGroup.control (g : PortGroup) :
    Group (MemRange Bytes) where
  size := g.size
  writes := g.writes
  atomicSet := g.atomicSet
  mainLeads := g.mainLeads

/-
  What the ports do: a patch is made, a range that a task
  used is compared, the group is committed.
-/
inductive PortEvent where
| created (k : Nat)
| compared (i : Nat) (r : MemRange Bytes)
| committed (k : Nat)
deriving DecidableEq, Repr

/- What the tasks hold, and what they share. -/
structure PortData where
  task : Nat → TaskData
  clock : Nat → Nat
  board : SwitchBoard
  writeUnion : RangeMap Bytes
  patches : Nat → RangeMap Bytes
  events : List PortEvent

namespace PortData

def setTask
    (d : PortData)
    (k : Nat)
    (t : TaskData) :
    PortData :=
  { d with task := Function.update d.task k t }

/- What the check of task `k` reads and writes. -/
def checkState (d : PortData) (k : Nat) : CheckState where
  writeUnion := d.writeUnion
  received := (d.task k).received
  receivedNUsed := (d.task k).receivedNUsed
  conflictAddr := 0

/- The data after the check of task `k`. -/
def afterCheck
    (d : PortData)
    (k : Nat)
    (st : CheckState) :
    PortData :=
  { d with
    writeUnion := st.writeUnion
    task := Function.update d.task k
      { d.task k with
        received := st.received
        receivedNUsed := st.receivedNUsed } }

/- The ranges that `ppr_commit` of task `k` compares. -/
def toCompare (d : PortData) (k : Nat) : List (MemRange Bytes) :=
  if (d.task k).receivedNUsed.size = 0 then []
  else (d.task k).receivedNUsed.ranges

/- The patches after the merge port's part of `data_commit`. -/
def merged (d : PortData) (k : Nat) : Nat → RangeMap Bytes :=
  pprCommit d.patches k (d.task k).mem (d.task k).writeMap

end PortData

/- The effect on the data of a step of the protocol. -/
def portGo
    (g : PortGroup)
    (k : Nat)
    (d : PortData) :
    Pc (MemRange Bytes) → Option PortData
| .checking =>
    -- the protocol inserts what the write map holds
    if (d.task k).writeMap.ranges = g.writes k then
      match checkForOverlap (d.checkState k)
          (d.task k).readMap with
      | .ret (st, 0) => some (d.afterCheck k st)
      | _ => none
    else none
| .inserting (range :: _) =>
    match unionAddRange (g.pprIndex + k) d.writeUnion
        range with
    | .ret writeUnion =>
        some { d with writeUnion := writeUnion }
    | _ => none
| .dataCommit =>
    -- the merge port commits first
    match postwaitCommit k (g.pprIndex + k) (d.merged k)
        (d.task k).receivedNUsed with
    | .ret patches =>
        some { d with
          patches := patches
          events := d.events ++
            .created k :: (d.toCompare k).map (.compared k) }
    | _ => none
| .groupCommit =>
    let (patches, mem) :=
      pprGroupCommit d.patches k (d.task k).mem
    some { d.setTask k { d.task k with mem := mem } with
      patches := patches
      events := d.events ++ [.committed k] }
| _ => some d

/-
  A task that aborts or dies leaves what it did before: in
  its data commit it has made its patch.
-/
def portStop
    (g : PortGroup)
    (k : Nat)
    (d : PortData) :
    Pc (MemRange Bytes) → PortData
| .checking =>
    { d with writeUnion := g.spoiled k d.writeUnion }
| .inserting _ =>
    { d with writeUnion := g.spoiled k d.writeUnion }
| .dataCommit =>
    { d with
      patches := d.merged k
      events := d.events ++ [.created k] }
| _ => d

/-
  The data's part of a step. Only the checks of a task write
  to its `received_n_used`.
-/
def portReact
    (g : PortGroup)
    (s : State (MemRange Bytes))
    (label : Proc × Act)
    (d : PortData) :
    Option PortData :=
  match label with
  | (.task k, .go) => portGo g k d (s.pc k)
  | (.task k, .work) =>
      (g.work k (d.clock k) (d.board, d.task k)).map
        (fun (board, t) =>
          { d.setTask k
              { t with
                receivedNUsed := (d.task k).receivedNUsed } with
            board := board
            clock := Function.update d.clock k
              (d.clock k + 1) })
  | (.task k, .fail) =>
      match checkForOverlap (d.checkState k)
          (d.task k).readMap with
      | .ret (st, _ + 1) => some (d.afterCheck k st)
      | _ => none
  | (.task k, .abort) => some (portStop g k d (s.pc k))
  | (.task k, .die) => some (portStop g k d (s.pc k))
  | _ => some d

/- The group from its initialisation on. -/
def portMachine (g : PortGroup) :
    Machine (State (MemRange Bytes) × PortData) (Proc × Act) :=
  (protocol g.control).withData
    { task := fun _ => pprTaskInit g.memory
      clock := fun _ => 0
      board := postwaitInit g.boardSize g.size
      writeUnion := initEmptyMap
      patches := g.patches
      events := [] }
    (portReact g)

------------------------------------------------------------
-- Maps That Count Their Ranges
------------------------------------------------------------

/- A map without a count has no ranges. -/
def Counted (map : RangeMap Bytes) : Prop :=
  map.size = 0 → map.ranges = []

theorem counted_mapAddRangeFromTask
    {map map' : RangeMap Bytes}
    {base size : Nat}
    {obj : Option Bytes}
    {pprId : Nat}
    (hMap : Counted map)
    (h : (mapAddRangeFromTask map base size obj pprId).outcome =
      .ret map') :
    Counted map' := by
  -- a map with a node at its root has a count
  have hRoot : ∀ lc top rc,
      splay map.root base = .node lc top rc →
        map.size ≠ 0 := by
    intro lc top rc hSplay hSize
    have hNil := ranges_eq_nil_iff.mp (hMap hSize)
    rw [hNil] at hSplay
    cases hSplay
  cases hAdd :
      mapAddRangeFromTask map base size obj pprId with
  | refused _ =>
      rw [hAdd] at h
      cases h
  | fault =>
      rw [hAdd] at h
      cases h
  | done map₁ range =>
      rw [hAdd] at h
      cases h
      unfold mapAddRangeFromTask at hAdd
      split at hAdd
      · cases hAdd
        intro hSize
        cases hSize
      · rename_i lc top rc hSplay
        have hNe := hRoot lc top rc hSplay
        dsimp only at hAdd
        repeat' split at hAdd
        all_goals cases hAdd
        all_goals
          intro hSize
          simp only at hSize
          omega

theorem counted_checkReceived
    {st st' : CheckState}
    {mseg acc : MemRange Bytes}
    {found : Nat × Nat}
    {conflict : Option Nat}
    (hUsed : Counted st.receivedNUsed)
    (h : checkReceived st mseg acc found =
      .ret (st', conflict)) :
    Counted st'.receivedNUsed := by
  unfold checkReceived at h
  split at h
  · cases h
    exact hUsed
  · split at h
    · simp only [Outcome.bind_eq_ret_iff] at h
      rcases h with ⟨⟨received, range⟩, _, h⟩
      split at h
      · rw [Outcome.bind_eq_ret_iff] at h
        rcases h with ⟨used, hAdd, h⟩
        cases h
        exact counted_mapAddRangeFromTask hUsed hAdd
      · cases h
        exact hUsed
    · cases h
      exact hUsed

theorem counted_checkRange
    {st st' : CheckState}
    {mseg : MemRange Bytes}
    {conflict : Option Nat}
    (hUsed : Counted st.receivedNUsed)
    (h : checkRange st mseg = .ret (st', conflict)) :
    Counted st'.receivedNUsed := by
  unfold checkRange at h
  split at h
  · cases h
    exact hUsed
  · simp only [Outcome.bind_eq_ret_iff] at h
    rcases h with ⟨⟨union, _⟩, _, h⟩
    split at h
    · simp only [Outcome.bind_eq_ret_iff] at h
      rcases h with ⟨⟨union', acc⟩, _, h⟩
      split at h
      · apply counted_checkReceived _ h
        exact hUsed
      · cases h
        exact hUsed
    · cases h
      exact hUsed

/- The check keeps the count of what was used. -/
theorem counted_checkForOverlap
    {st st' : CheckState}
    {myAccess : RangeMap Bytes}
    {conflict : Nat}
    (hUsed : Counted st.receivedNUsed)
    (h : checkForOverlap st myAccess = .ret (st', conflict)) :
    Counted st'.receivedNUsed := by
  have hLoop : ∀ ranges st,
      Counted st.receivedNUsed →
        checkRanges st ranges = .ret (st', conflict) →
          Counted st'.receivedNUsed := by
    intro ranges
    induction ranges with
    | nil =>
        intro st hUsed h
        cases h
        exact hUsed
    | cons mseg rest ih =>
        intro st hUsed h
        unfold checkRanges at h
        rw [Outcome.bind_eq_ret_iff] at h
        rcases h with ⟨⟨st₁, found⟩, hRange, h⟩
        have hNext := counted_checkRange hUsed hRange
        cases found with
        | none => exact ih st₁ hNext h
        | some base =>
            cases h
            exact hNext
  unfold checkForOverlap at h
  split at h
  · cases h
    exact hUsed
  · exact hLoop _ st hUsed h

------------------------------------------------------------
-- What a Comparison Needs
------------------------------------------------------------

/- `sender_spec_order` of `mdfy_aftr_pst_chk`. -/
def senderOf
    (specOrder pprIndex : Nat)
    (mem : MemRange Bytes) :
    Nat :=
  (specOrder + mem.task + (2 ^ 32 - pprIndex % 2 ^ 32)) %
    2 ^ 32

theorem senderOf_eq
    {i k pprIndex : Nat}
    {r : MemRange Bytes}
    (hk : k < 2 ^ 31)
    (hTask : r.task = pprIndex + k) :
    senderOf i (pprIndex + i) r = k := by
  unfold senderOf
  rw [hTask]
  omega

/- A lookup that finds something has something to find. -/
theorem root_ne_nil_of_mapFind
    {map map' : RangeMap Bytes}
    {addr : Nat}
    {range : MemRange Bytes}
    (h : mapFind map addr = .ret (map', range)) :
    map.root ≠ .nil := by
  intro hNil
  unfold mapFind mapContains at h
  rw [hNil] at h
  cases h

/- A comparison returns only if the sender has a patch. -/
theorem mdfyAftrPstChk_patch
    {specOrder pprIndex : Nat}
    {patches patches' : Nat → RangeMap Bytes}
    {r : MemRange Bytes}
    (h : mdfyAftrPstChk specOrder pprIndex patches r =
      .ret patches') :
    (patches (senderOf specOrder pprIndex r)).root ≠ .nil ∧
      ∀ k, (patches' k).root ≠ .nil →
        (patches k).root ≠ .nil := by
  unfold mdfyAftrPstChk at h
  simp only [Outcome.bind_eq_ret_iff] at h
  rcases h with ⟨⟨patch, found⟩, hFind, h⟩
  have hRoot := root_ne_nil_of_mapFind hFind
  refine ⟨hRoot, ?_⟩
  split at h
  · cases h
    intro k hk
    by_cases hSender :
        k = senderOf specOrder pprIndex r
    · rw [hSender]
      exact hRoot
    · have hOther : (Function.update patches
          (senderOf specOrder pprIndex r) patch k).root ≠
            .nil := hk
      rw [Function.update_of_ne hSender] at hOther
      exact hOther
  · cases h

/- So do all comparisons of a commit. -/
theorem foldlM_mdfyAftrPstChk_patch
    {specOrder pprIndex : Nat}
    (ranges : List (MemRange Bytes))
    {patches patches' : Nat → RangeMap Bytes}
    (h : ranges.foldlM (mdfyAftrPstChk specOrder pprIndex)
      patches = .ret patches') :
    (∀ r ∈ ranges,
      (patches (senderOf specOrder pprIndex r)).root ≠ .nil) ∧
      ∀ k, (patches' k).root ≠ .nil →
        (patches k).root ≠ .nil := by
  induction ranges generalizing patches with
  | nil =>
      cases h
      refine ⟨?_, fun k hk => hk⟩
      intro r hr
      cases hr
  | cons r rest ih =>
      rw [List.foldlM_cons, Outcome.bind_eq_ret_iff] at h
      rcases h with ⟨next, hCheck, hRest⟩
      rcases mdfyAftrPstChk_patch hCheck with ⟨hRoot, hKeep⟩
      rcases ih hRest with ⟨hAll, hKeep'⟩
      constructor
      · intro r' hr'
        rcases List.mem_cons.mp hr' with rfl | hr'
        · exact hRoot
        · exact hKeep _ (hAll r' hr')
      · intro k hk
        exact hKeep k (hKeep' k hk)

theorem postwaitCommit_patch
    {d : PortData}
    {g : PortGroup}
    {k : Nat}
    {patches' : Nat → RangeMap Bytes}
    (h : postwaitCommit k (g.pprIndex + k) (d.merged k)
      (d.task k).receivedNUsed = .ret patches') :
    (∀ r ∈ d.toCompare k,
      (d.merged k (senderOf k (g.pprIndex + k) r)).root ≠
        .nil) ∧
      ∀ j, (patches' j).root ≠ .nil →
        (d.merged k j).root ≠ .nil := by
  unfold postwaitCommit at h
  unfold PortData.toCompare
  by_cases hSize : (d.task k).receivedNUsed.size = 0
  · rw [if_pos hSize] at h ⊢
    cases h
    refine ⟨?_, fun j hj => hj⟩
    intro r hr
    cases hr
  · rw [if_neg hSize] at h ⊢
    exact foldlM_mdfyAftrPstChk_patch _ h

------------------------------------------------------------
-- What a Step Does to the Data
------------------------------------------------------------

/-
  Every range task `i` used from a task of the group was
  compared, after the patch of its sender had been made.
-/
def Validated
    (g : PortGroup)
    (events : List PortEvent)
    (d : PortData)
    (i : Nat) : Prop :=
  ∀ r ∈ (d.task i).receivedNUsed.ranges,
    ∀ k, k < g.size → r.task = g.pprIndex + k →
      ∃ before mid after,
        events = before ++ .created k ::
          (mid ++ .compared i r :: after)

theorem Validated.append
    {g : PortGroup}
    {events : List PortEvent}
    {d d' : PortData}
    {i : Nat}
    (h : Validated g events d i)
    (more : List PortEvent)
    (hSame : (d'.task i).receivedNUsed =
      (d.task i).receivedNUsed) :
    Validated g (events ++ more) d' i := by
  intro r hr k hk hTask
  rw [hSame] at hr
  rcases h r hr k hk hTask with ⟨before, mid, after, hEq⟩
  refine ⟨before, mid, after ++ more, ?_⟩
  rw [hEq]
  simp

/- An entry of one list and then one of another. -/
theorem split_of_mem
    {α : Type}
    {l l' : List α}
    {a b : α}
    (ha : a ∈ l)
    (hb : b ∈ l') :
    ∃ before mid after,
      l ++ l' = before ++ a :: (mid ++ b :: after) := by
  rcases List.append_of_mem ha with ⟨before, mid, rfl⟩
  rcases List.append_of_mem hb with ⟨mid', after, rfl⟩
  exact ⟨before, mid ++ mid', after, by simp⟩

/- The patches that are there were made in this group. -/
def Made (d : PortData) : Prop :=
  ∀ k, (d.patches k).root ≠ .nil → .created k ∈ d.events

/- What later arguments need of a step. -/
structure PortStep
    (g : PortGroup)
    (s : State (MemRange Bytes))
    (label : Proc × Act)
    (d d' : PortData) : Prop where
  grows : ∃ more, d'.events = d.events ++ more
  used : ∀ i, (d'.task i).receivedNUsed =
    (d.task i).receivedNUsed ∨ s.pc i = .checking
  counted : ∀ i, Counted (d.task i).receivedNUsed →
    Counted (d'.task i).receivedNUsed
  made : Made d → Made d'
  compares : ∀ k, label = (.task k, .go) →
    s.pc k = .dataCommit → Made d →
      Counted (d.task k).receivedNUsed →
        Validated g d'.events d' k
  commits : ∀ k, label = (.task k, .go) →
    s.pc k = .groupCommit →
      d'.events = d.events ++ [.committed k]

section Steps

variable {g : PortGroup}
variable {s : State (MemRange Bytes)}
variable {label : Proc × Act}
variable {d d' : PortData}
variable {k : Nat}

/- The step is none of the two that commit. -/
def Aside (s : State (MemRange Bytes)) (label : Proc × Act) : Prop :=
  ∀ k, label = (.task k, .go) →
    s.pc k ≠ .dataCommit ∧ s.pc k ≠ .groupCommit

theorem aside_of_act
    {act : Act}
    (h : act ≠ .go) :
    Aside s (.task k, act) := by
  intro j hEq
  rw [Prod.mk.injEq] at hEq
  exact absurd hEq.2 h

theorem eq_of_label
    {act act' : Act}
    {j : Nat}
    (h : (Proc.task k, act) = (.task j, act')) :
    k = j := by
  rw [Prod.mk.injEq, Proc.task.injEq] at h
  exact h.1

/- A step that keeps patches, events and what was used. -/
theorem portStep_quiet
    (hAside : Aside s label)
    (hEvents : d'.events = d.events)
    (hPatches : d'.patches = d.patches)
    (hUsed : ∀ i, (d'.task i).receivedNUsed =
      (d.task i).receivedNUsed) :
    PortStep g s label d d' := by
  constructor
  · exact ⟨[], by rw [hEvents, List.append_nil]⟩
  · exact fun i => Or.inl (hUsed i)
  · intro i hCounted
    rw [hUsed i]
    exact hCounted
  · intro hMade j hj
    rw [hPatches] at hj
    rw [hEvents]
    exact hMade j hj
  · intro j hLabel hPc
    exact absurd hPc (hAside j hLabel).1
  · intro j hLabel hPc
    exact absurd hPc (hAside j hLabel).2

/- A change of one task that leaves alone what it used. -/
theorem used_setTask
    {t : TaskData}
    (hSame : t.receivedNUsed = (d.task k).receivedNUsed)
    (i : Nat) :
    (Function.update d.task k t i).receivedNUsed =
      (d.task i).receivedNUsed := by
  by_cases hi : i = k
  · rw [hi, Function.update_self]
    exact hSame
  · rw [Function.update_of_ne hi]

/- The check of a task. -/
theorem portStep_check
    {st : CheckState}
    {conflict : Nat}
    (hAside : Aside s label)
    (hPc : s.pc k = .checking)
    (hCheck : checkForOverlap (d.checkState k)
      (d.task k).readMap = .ret (st, conflict)) :
    PortStep g s label d (d.afterCheck k st) := by
  constructor
  · exact ⟨[], (List.append_nil _).symm⟩
  · intro i
    by_cases hi : i = k
    · exact Or.inr (hi ▸ hPc)
    · left
      change (Function.update d.task k _ i).receivedNUsed = _
      rw [Function.update_of_ne hi]
  · intro i hCounted
    change Counted (Function.update d.task k _ i).receivedNUsed
    by_cases hi : i = k
    · subst hi
      rw [Function.update_self]
      exact counted_checkForOverlap hCounted hCheck
    · rw [Function.update_of_ne hi]
      exact hCounted
  · exact fun hMade => hMade
  · intro j hLabel hPc'
    exact absurd hPc' (hAside j hLabel).1
  · intro j hLabel hPc'
    exact absurd hPc' (hAside j hLabel).2

/- A patch that a data commit leaves was made in the group. -/
theorem created_of_merged
    (hMade : Made d)
    {j : Nat}
    (hj : (d.merged k j).root ≠ .nil) :
    .created j ∈ d.events ++ [PortEvent.created k] := by
  by_cases hjk : j = k
  · rw [hjk]
    simp
  · apply List.mem_append_left
    apply hMade
    unfold PortData.merged pprCommit at hj
    rw [Function.update_of_ne hjk] at hj
    exact hj

/- A task that stops in its data commit has made its patch. -/
theorem portStep_stop
    (hAside : Aside s label)
    (pc : Pc (MemRange Bytes)) :
    PortStep g s label d (portStop g k d pc) := by
  unfold portStop
  split
  · exact portStep_quiet hAside rfl rfl (fun _ => rfl)
  · exact portStep_quiet hAside rfl rfl (fun _ => rfl)
  · constructor
    · exact ⟨[.created k], rfl⟩
    · exact fun i => Or.inl rfl
    · exact fun i hCounted => hCounted
    · intro hMade j hj
      exact created_of_merged hMade hj
    · intro j hLabel hPc
      exact absurd hPc (hAside j hLabel).1
    · intro j hLabel hPc
      exact absurd hPc (hAside j hLabel).2
  · exact portStep_quiet hAside rfl rfl (fun _ => rfl)

/- A data commit compares all that the task used. -/
theorem portStep_dataCommit
    {patches : Nat → RangeMap Bytes}
    (hPc : s.pc k = .dataCommit)
    (hCommit : postwaitCommit k (g.pprIndex + k) (d.merged k)
      (d.task k).receivedNUsed = .ret patches) :
    PortStep g s (.task k, .go) d
      { d with
        patches := patches
        events := d.events ++
          .created k ::
            (d.toCompare k).map (.compared k) } := by
  rcases postwaitCommit_patch hCommit with ⟨hAll, hKeep⟩
  have hEvents : d.events ++ .created k ::
      (d.toCompare k).map (.compared k) =
        (d.events ++ [.created k]) ++
          (d.toCompare k).map (PortEvent.compared k) := by
    simp
  constructor
  · exact ⟨_, rfl⟩
  · exact fun i => Or.inl rfl
  · exact fun i hCounted => hCounted
  · intro hMade j hj
    simp only [hEvents]
    apply List.mem_append_left
    exact created_of_merged hMade (hKeep j hj)
  · intro j hLabel _ hMade hCounted r hr i hi hTask
    have hEq := eq_of_label hLabel
    subst hEq
    have hIn : r ∈ d.toCompare k := by
      unfold PortData.toCompare
      rw [if_neg]
      · exact hr
      · intro hSize
        have hNone := hCounted hSize
        change r ∈ (d.task k).receivedNUsed.ranges at hr
        rw [hNone] at hr
        cases hr
    have hSender := hAll r hIn
    rw [senderOf_eq (Nat.lt_trans hi g.intSize) hTask]
      at hSender
    simp only [hEvents]
    exact split_of_mem (created_of_merged hMade hSender)
      (List.mem_map_of_mem hIn)
  · intro j hLabel hPc'
    rw [← eq_of_label hLabel, hPc] at hPc'
    cases hPc'

theorem portStep_groupCommit
    (hPc : s.pc k = .groupCommit)
    (hGo : portGo g k d (s.pc k) = some d') :
    PortStep g s (.task k, .go) d d' := by
  rw [hPc] at hGo
  unfold portGo at hGo
  cases hGo
  have hUsed : ∀ i,
      (Function.update d.task k
        { d.task k with
          mem := (pprGroupCommit d.patches k
            (d.task k).mem).2 } i).receivedNUsed =
        (d.task i).receivedNUsed := by
    intro i
    apply used_setTask
    rfl
  constructor
  · exact ⟨_, rfl⟩
  · exact fun i => Or.inl (hUsed i)
  · intro i hCounted
    have hCounted' := hCounted
    rw [← hUsed i] at hCounted'
    exact hCounted'
  · intro hMade j hj
    apply List.mem_append_left
    apply hMade
    -- applied patches are cleared
    simp only at hj
    split at hj
    · exact absurd rfl hj
    · exact hj
  · intro j hLabel hPc'
    rw [← eq_of_label hLabel, hPc] at hPc'
    cases hPc'
  · intro j hLabel _
    rw [← eq_of_label hLabel]

/- A step of the protocol, at each of its points. -/
theorem portStep_go
    (h : portGo g k d (s.pc k) = some d') :
    PortStep g s (.task k, .go) d d' := by
  by_cases hGroup : s.pc k = .groupCommit
  · exact portStep_groupCommit hGroup h
  · by_cases hData : s.pc k = .dataCommit
    · rw [hData] at h
      simp only [portGo] at h
      split at h
      · rename_i patches hCommit
        cases h
        exact portStep_dataCommit hData hCommit
      · cases h
    · have hAside : Aside s (.task k, .go) := by
        intro j hLabel
        rw [← eq_of_label hLabel]
        exact ⟨hData, hGroup⟩
      unfold portGo at h
      split at h
      · rename_i hPc
        split at h
        · split at h
          · rename_i st hCheck
            cases h
            exact portStep_check hAside hPc hCheck
          · cases h
        · cases h
      · split at h
        · cases h
          exact portStep_quiet hAside rfl rfl (fun _ => rfl)
        · cases h
      · exact absurd ‹_› hData
      · exact absurd ‹_› hGroup
      · cases h
        exact portStep_quiet hAside rfl rfl (fun _ => rfl)

/- Only a check that runs can fail. -/
theorem checking_of_fail
    {s' : State (MemRange Bytes)}
    (h : step g.control s (.task k, .fail) = some s') :
    s.pc k = .checking := by
  cases coreStep_of_step h with
  | moved j act move hLabel hMove hFree hPc hHeld hSize hLog =>
      simp only [Prod.mk.injEq, Proc.task.injEq] at hLabel
      rcases hLabel with ⟨rfl, rfl⟩
      revert hMove
      generalize s.pc k = pc
      intro hMove
      cases hMove
      rfl
  | ended j why hLabel _ _ _ _ _ =>
      rcases hLabel k .fail rfl with hEq | hEq <;> cases hEq
  | aside hLabel _ _ _ _ =>
      rcases hLabel k .fail rfl with hEq | hEq <;> cases hEq

theorem portStep_of_react
    {s' : State (MemRange Bytes)}
    (hStep : step g.control s label = some s')
    (h : portReact g s label d = some d') :
    PortStep g s label d d' := by
  rcases label with ⟨proc, act⟩
  cases proc with
  | undy =>
      cases h
      apply portStep_quiet _ rfl rfl (fun _ => rfl)
      intro j hLabel
      cases hLabel
  | task k =>
      cases act with
      | go => exact portStep_go h
      | work =>
          simp only [portReact, Option.map_eq_some_iff] at h
          rcases h with ⟨⟨board, t⟩, _, rfl⟩
          have hAside : Aside s (.task k, .work) :=
            aside_of_act (by simp)
          refine portStep_quiet hAside ?_ ?_ ?_
          · rfl
          · rfl
          · intro i
            apply used_setTask
            rfl
      | fail =>
          have hPc := checking_of_fail hStep
          simp only [portReact] at h
          split at h
          · rename_i st conflict hCheck
            cases h
            exact portStep_check (aside_of_act (by simp)) hPc
              hCheck
          · cases h
      | abort =>
          cases h
          exact portStep_stop (aside_of_act (by simp)) _
      | die =>
          cases h
          exact portStep_stop (aside_of_act (by simp)) _
      | abortNext =>
          cases h
          exact portStep_quiet (aside_of_act (by simp)) rfl rfl
            (fun _ => rfl)
      | usr1 =>
          cases h
          exact portStep_quiet (aside_of_act (by simp)) rfl rfl
            (fun _ => rfl)
      | usr2 =>
          cases h
          exact portStep_quiet (aside_of_act (by simp)) rfl rfl
            (fun _ => rfl)

end Steps

------------------------------------------------------------
-- The Invariant
------------------------------------------------------------

section Invariant

variable {ρ : Type}

/- The task is past the test that it is not the last one. -/
def pastTest : Pc ρ → Bool
| .signalCommit => true
| .waitNext => true
| .waitNextRelease => true
| .lastTest => true
| .waitGroup _ => true
| .waitGroupAcquire _ => true
| .groupCommit => true
| .groupSignal => true
| .setSize _ next => pastTest next
| .setAcquire _ next => pastTest next
| .setWrite _ next => pastTest next
| .setRelease next => pastTest next
| _ => false

theorem TaskMove.pastTest
    {cfg : Group ρ}
    {k psize : Nat}
    {pc : Pc ρ}
    {act : Act}
    {move : Move ρ}
    (h : TaskMove cfg k psize pc act move)
    (hPast : Cbop.pastTest move.1 = true) :
    Cbop.pastTest pc = true ∨
      (pc = .dataCommit ∧ act = .go) ∨
      (pc = .commitTest ∧ act = .go ∧ psize - 1 ≤ k) := by
  cases h
  case dataCommit => exact Or.inr (Or.inl ⟨rfl, rfl⟩)
  case maybeLast hLast =>
    exact Or.inr (Or.inr ⟨rfl, rfl, hLast⟩)
  all_goals simp_all [Cbop.pastTest]

theorem TaskMove.signals_past
    {cfg : Group ρ}
    {k psize i : Nat}
    {pc : Pc ρ}
    {act : Act}
    {move : Move ρ}
    (h : TaskMove cfg k psize pc act move)
    (hSignal : Event.signalled i ∈ move.2.2) :
    i = k ∧ (Cbop.pastTest pc = true ∨ pc = .abortSignal) := by
  cases h <;> simp_all [Cbop.pastTest]

theorem TaskMove.commits_go
    {cfg : Group ρ}
    {k psize i : Nat}
    {pc : Pc ρ}
    {act : Act}
    {move : Move ρ}
    (h : TaskMove cfg k psize pc act move)
    (hCommit : Event.groupCommitted i ∈ move.2.2) :
    act = .go := by
  cases h <;> simp_all

end Invariant

/-
  Tasks past the test have validated what they used, and so
  have those that signalled without having aborted. When the
  group was committed, all its tasks had.
-/
structure PortInv
    (g : PortGroup)
    (s : State (MemRange Bytes))
    (d : PortData) : Prop where
  counted : ∀ i, Counted (d.task i).receivedNUsed
  made : Made d
  point : ∀ i, pastTest (s.pc i) = true →
    Validated g d.events d i
  signalled : ∀ i, Event.signalled i ∈ s.log →
    Event.aborted i ∈ s.log ∨ Validated g d.events d i
  committed : ∀ l, Event.groupCommitted l ∈ s.log →
    ∃ before after,
      d.events = before ++ .committed l :: after ∧
        ∀ i, i ≤ l → Validated g before d i

/-
  Sizes are written in time, and a task that finds itself
  the last one when it is about to commit its data has used
  nothing it received.
-/
def LastUsesNothing
    (g : PortGroup)
    (s : State (MemRange Bytes) × PortData)
    (label : Proc × Act) : Prop :=
  ShrinksInTime g.control s.1 label ∧
    ∀ k, label = (.task k, .go) → s.1.pc k = .commitTest →
      s.1.partialSize - 1 ≤ k →
        (s.2.task k).receivedNUsed.ranges = []

section Preserved

variable {g : PortGroup}
variable {s s' : State (MemRange Bytes)}
variable {d d' : PortData}
variable {label : Proc × Act}

/- What was validated stays so, unless the task checks. -/
theorem Validated.step
    {i : Nat}
    (h : Validated g d.events d i)
    (hData : PortStep g s label d d')
    (hPc : s.pc i ≠ .checking) :
    Validated g d'.events d' i := by
  rcases hData.grows with ⟨more, hMore⟩
  rw [hMore]
  exact h.append more ((hData.used i).resolve_right hPc)

theorem ne_checking_of_pastTest
    {pc : Pc (MemRange Bytes)}
    (h : pastTest pc = true) :
    pc ≠ .checking := by
  intro hEq
  subst hEq
  cases h

/- A task that signalled does not check again. -/
theorem ne_checking_of_signalled
    (hFail : FailInv s)
    {i : Nat}
    (hSignal : Event.signalled i ∈ s.log) :
    s.pc i ≠ .checking := by
  intro hPc
  apply hFail.unsignalled i _ hSignal
  rw [hPc]
  rfl

/- The tasks of a committed group do not check again. -/
theorem ne_checking_of_committed
    (hFail : FailInv s)
    {l i : Nat}
    (hCommitted : Event.groupCommitted l ∈ s.log)
    (hi : i ≤ l) :
    s.pc i ≠ .checking := by
  by_cases hEq : i = l
  · intro hPc
    have hPast := hFail.past l hCommitted
    rw [← hEq, hPc] at hPast
    cases hPast
  · exact ne_checking_of_signalled hFail
      (hFail.behind l hCommitted i (by omega))

/- The commit of an earlier step, with all before it. -/
theorem PortInv.committed_step
    (hInv : PortInv g s d)
    (hFail : FailInv s)
    (hData : PortStep g s label d d')
    {l : Nat}
    (hCommitted : Event.groupCommitted l ∈ s.log) :
    ∃ before after,
      d'.events = before ++ .committed l :: after ∧
        ∀ i, i ≤ l → Validated g before d' i := by
  rcases hInv.committed l hCommitted with
    ⟨before, after, hEvents, hAll⟩
  rcases hData.grows with ⟨more, hMore⟩
  refine ⟨before, after ++ more, ?_, ?_⟩
  · rw [hMore, hEvents]
    simp
  · intro i hi
    have hPc := ne_checking_of_committed hFail hCommitted hi
    have hSame := (hData.used i).resolve_right hPc
    have hKept := (hAll i hi).append [] hSame
    rw [List.append_nil] at hKept
    exact hKept

/- A signal of an earlier step. -/
theorem PortInv.signalled_step
    (hInv : PortInv g s d)
    (hFail : FailInv s)
    (hData : PortStep g s label d d')
    {i : Nat}
    (hSignal : Event.signalled i ∈ s.log) :
    Event.aborted i ∈ s.log ∨ Validated g d'.events d' i := by
  rcases hInv.signalled i hSignal with hAborted | hValid
  · exact Or.inl hAborted
  · right
    exact hValid.step hData
      (ne_checking_of_signalled hFail hSignal)

/-
  When a task is about to commit the group, the tasks before
  it have signalled, and none of them aborted.
-/
theorem PortInv.at_commit
    (hInv : PortInv g s d)
    (hSignals : SignalInv s)
    (hFail : FailInv s)
    {l i : Nat}
    (hPoint : s.pc l = .groupCommit)
    (hi : i ≤ l) :
    Validated g d.events d i ∧ s.pc i ≠ .checking := by
  by_cases hEq : i = l
  · rw [hEq, hPoint]
    constructor
    · apply hInv.point l
      rw [hPoint]
      rfl
    · simp
  · have hReady : atCommit (s.pc l) = true := by
      rw [hPoint]
      rfl
    have hSignal := hFail.ready l hReady i (by omega)
    refine ⟨?_, ne_checking_of_signalled hFail hSignal⟩
    rcases hInv.signalled i hSignal with hAborted | hValid
    · exfalso
      by_cases hMain : i = 0
      · exact hSignals.main (hMain ▸ hAborted)
      · exact clean_of_commit hFail hPoint hMain hi
          (Or.inl hAborted)
    · exact hValid

/- A step that only ends a task, or none of them. -/
theorem portInv_frame
    (hFail : FailInv s)
    (hInv : PortInv g s d)
    (hData : PortStep g s label d d')
    (hPc : ∀ i, pastTest (s'.pc i) = true →
      pastTest (s.pc i) = true)
    (hLog : s'.log = s.log ∨
      s'.log = s.log ++ [.becameSeq .undy]) :
    PortInv g s' d' := by
  have hOld : ∀ e, e ≠ .becameSeq .undy →
      (e ∈ s'.log ↔ e ∈ s.log) :=
    fun e => mem_log_of_aside hLog
  constructor
  · exact fun i => hData.counted i (hInv.counted i)
  · exact hData.made hInv.made
  · intro i hi
    have hPast := hPc i hi
    exact (hInv.point i hPast).step hData
      (ne_checking_of_pastTest hPast)
  · intro i hSignal
    rw [hOld _ (by simp)] at hSignal ⊢
    exact hInv.signalled_step hFail hData hSignal
  · intro l hCommitted
    rw [hOld _ (by simp)] at hCommitted
    exact hInv.committed_step hFail hData hCommitted

/- A move of a task. -/
theorem portInv_move
    {k : Nat}
    {act : Act}
    {move : Move (MemRange Bytes)}
    (hUnspawned : Unspawned s)
    (hSignals : SignalInv s)
    (hFail : FailInv s)
    (hInv : PortInv g s d)
    (hOk : LastUsesNothing g (s, d) (.task k, act))
    (hData : PortStep g s (.task k, act) d d')
    (hMove : TaskMove g.control k s.partialSize (s.pc k) act
      move)
    (hPc : s'.pc =
      Function.update (pcAfter s.pc k move.2.1) k move.1)
    (hLog : s'.log = s.log ++ move.2.2) :
    PortInv g s' d' := by
  have hMoved := pcMoved_of_move hUnspawned hMove hPc
  constructor
  · exact fun i => hData.counted i (hInv.counted i)
  · exact hData.made hInv.made
  · intro i hi
    by_cases hik : i = k
    · subst hik
      rw [hMoved.self] at hi
      rcases hMove.pastTest hi with
        hPast | ⟨hCommit, rfl⟩ | ⟨hTest, rfl, hLast⟩
      · exact (hInv.point i hPast).step hData
          (ne_checking_of_pastTest hPast)
      · exact hData.compares i rfl hCommit hInv.made
          (hInv.counted i)
      · -- the last task has nothing to validate
        have hNone := hOk.2 i rfl hTest hLast
        have hSame := (hData.used i).resolve_right (by
          rw [hTest]
          simp)
        intro r hr
        rw [hSame] at hr
        rw [show (d.task i).receivedNUsed.ranges = [] from
          hNone] at hr
        cases hr
    · rw [hMoved.other pastTest rfl i hik] at hi
      exact (hInv.point i hi).step hData
        (ne_checking_of_pastTest hi)
  · intro i hSignal
    rw [hLog, List.mem_append] at hSignal
    rcases hSignal with hOld | hNew
    · rcases hInv.signalled_step hFail hData hOld with
        hAborted | hValid
      · rw [hLog]
        exact Or.inl (List.mem_append_left _ hAborted)
      · exact Or.inr hValid
    · rcases hMove.signals_past hNew with
        ⟨rfl, hPast | hAbort⟩
      · exact Or.inr ((hInv.point i hPast).step hData
          (ne_checking_of_pastTest hPast))
      · have hPoint := hSignals.point i
        rw [hAbort] at hPoint
        rw [hLog]
        exact Or.inl (List.mem_append_left _ hPoint)
  · intro l hCommitted
    rw [hLog, List.mem_append] at hCommitted
    rcases hCommitted with hOld | hNew
    · exact hInv.committed_step hFail hData hOld
    · rcases hMove.commits hNew with ⟨rfl, hPoint, _⟩
      have hGo := hMove.commits_go hNew
      subst hGo
      refine ⟨d.events, [], hData.commits l rfl hPoint, ?_⟩
      intro i hi
      rcases hInv.at_commit hSignals hFail hPoint hi with
        ⟨hValid, hPc'⟩
      have hSame := (hData.used i).resolve_right hPc'
      have hKept := hValid.append [] hSame
      rw [List.append_nil] at hKept
      exact hKept

theorem portInv_step
    (hUnspawned : Unspawned s)
    (hSignals : SignalInv s)
    (hFail : FailInv s)
    (hInv : PortInv g s d)
    (hOk : LastUsesNothing g (s, d) label)
    (hStep : step g.control s label = some s')
    (hReact : portReact g s label d = some d') :
    PortInv g s' d' := by
  have hData := portStep_of_react hStep hReact
  cases coreStep_of_step hStep with
  | moved k act move hLabel hMove hFree hPc hHeld hSize
      hLog =>
      subst hLabel
      exact portInv_move hUnspawned hSignals hFail hInv hOk
        hData hMove hPc hLog
  | ended k why hLabel hAlive hPc hHeld hSize hLog =>
      exact portInv_frame hFail hInv hData
        (view_of_ended hPc pastTest rfl) (Or.inl hLog)
  | aside hLabel hPc hHeld hSize hLog =>
      apply portInv_frame hFail hInv hData _ hLog
      intro i hi
      rw [hPc] at hi
      exact hi

end Preserved

------------------------------------------------------------
-- Validation Before the Commit
------------------------------------------------------------

theorem portInv_initial
    (g : PortGroup)
    (hPatches : ∀ k, (g.patches k).root = .nil) :
    PortInv g (portMachine g).start.1
      (portMachine g).start.2 := by
  constructor
  · intro i _
    rfl
  · intro k hk
    exact absurd (hPatches k) hk
  · intro i hi
    by_cases hMain : i = 0
    · simp [portMachine, Machine.withData, protocol,
        State.init, hMain, pastTest] at hi
    · simp [portMachine, Machine.withData, protocol,
        State.init, hMain, pastTest] at hi
  · intro i hSignal
    cases hSignal
  · intro l hCommitted
    cases hCommitted

theorem portInv_of_reachable
    {g : PortGroup}
    (hPatches : ∀ k, (g.patches k).root = .nil)
    {s : State (MemRange Bytes) × PortData}
    (hReach : (portMachine g).Reachable (LastUsesNothing g) s) :
    PortInv g s.1 s.2 := by
  apply hReach.invariant (fun s => PortInv g s.1 s.2)
  · exact portInv_initial g hPatches
  · intro s label s' hBefore hInv hOk hStep
    have hInTime : (portMachine g).Reachable
        (fun s label => ShrinksInTime g.control s.1 label) s :=
      hBefore.mono (fun _ _ h => h.1)
    have hControl := hInTime.control
    rcases Machine.withData_step_iff.mp hStep with
      ⟨hNext, hReact⟩
    exact portInv_step (unspawned_of_reachable hControl)
      (signalInv_of_reachable hControl)
      (failInv_of_reachable hControl) hInv hOk hNext hReact

/- A store of four bytes at address 8, as it is recorded. -/
def storeFour (value : Bytes) (t : TaskData) : TaskData :=
  { t with
    mem := storeBytes t.mem 8 4 value
    writeMap := recordAccess t.writeMap (8, 4) }

/-
  MAIN stores four bytes, posts them on channel 5 and stores
  the bytes `second` there. Task 1 waits for the channel and
  reads the bytes it received.
-/
def storePostStore
    (second : Bytes)
    (k n : Nat)
    (st : SwitchBoard × TaskData) :
    Option (SwitchBoard × TaskData) :=
  let (board, t) := st
  match k, n with
  | 0, 0 => some (board, storeFour [1, 1, 1, 1] t)
  | 0, 1 =>
      match channelFill .main 5 t.localCh 8 4 with
      | .ret localCh =>
          some (board, { t with localCh := localCh })
      | _ => none
  | 0, 2 =>
      match channelPost .main 1 5 t.mem board t.localCh
          t.writeMap with
      | .ret (board, localCh, writeMap) =>
          some (board,
            { t with
              localCh := localCh
              writeMap := writeMap })
      | _ => none
  | 0, 3 => some (board, storeFour second t)
  | 1, 0 =>
      match channelWait .spec 5 board t.readMap t.writeMap
          t.received t.mem with
      | some (.ret (received, mem)) =>
          some (board,
            { t with received := received, mem := mem })
      | _ => none
  | 1, 1 =>
      some (board,
        { t with readMap := recordAccess t.readMap (8, 4) })
  | _, _ => none

/- A group of two or three tasks that runs this. -/
def rewriting (third : Bool) (second : Bytes) : PortGroup where
  size := if third then 3 else 2
  pprIndex := 1
  boardSize := 0
  memory := fun _ => 0
  patches := fun _ => initEmptyMap
  work := storePostStore second
  writes := fun k =>
    if k = 0 then (recordAll [(8, 4)]).ranges else []
  spoiled := fun _ map => map
  atomicSet := false
  mainLeads := true
  intSize := by
    cases third
    · decide
    · decide

/- The regions of MAIN and task 1, and MAIN's data commit. -/
def untilSignalled : List (Proc × Act) :=
  [(.task 0, .go)] ++ List.replicate 4 (.task 0, .work) ++
    [(.task 1, .go), (.task 1, .work), (.task 1, .work)] ++
    List.replicate 10 (.task 0, .go)

/- The one range task 1 used. -/
def usedByFirst (d : PortData) : List (MemRange Bytes) :=
  (d.task 1).receivedNUsed.ranges

/-
  The step does not write the size of the group, and is not
  the test of a last task that used something.
-/
def nothingUsedLast
    (g : PortGroup)
    (s : State (MemRange Bytes) × PortData)
    (label : Proc × Act) : Bool :=
  match label.1 with
  | .task k =>
      decide (nextSize g.control s.1.partialSize (s.1.pc k) =
        none) &&
      (decide (s.1.pc k ≠ .commitTest) ||
        decide (k < s.1.partialSize - 1) ||
        (s.2.task k).receivedNUsed.ranges.isEmpty)
  | .undy => true

theorem lastUsesNothing_of_test
    {g : PortGroup}
    {s : State (MemRange Bytes) × PortData}
    {label : Proc × Act}
    (hTest : nothingUsedLast g s label = true) :
    LastUsesNothing g s label := by
  constructor
  · intro k p hLabel hNext
    simp [nothingUsedLast, hLabel, hNext] at hTest
  · intro k hLabel hPc hLast
    have hNot : ¬k < s.1.partialSize - 1 := by omega
    simp only [nothingUsedLast, hLabel, hPc, hNot,
      Bool.and_eq_true, Bool.or_eq_true, decide_eq_true_eq,
      List.isEmpty_iff] at hTest
    simpa using hTest.2

end Cbop
