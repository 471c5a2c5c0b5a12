import Cbop.Lib.Machine
import Cbop.Ppr.Region

/-
  The numbering of the tasks of one group.

  `BOP_ppr_index` counts regions and `spec_order` tasks. The
  post-wait tags, the channel numbers of ordered regions and
  the patch looked up for a sender all rest on the two being
  in step. A nested `_BOP_ppr_begin` is reported as ignored,
  but it counts a region all the same.

  Main declarations:
    * `numbering`, `Nested`, `Aligned`
    * `numbering_aligned_iff`
-/

namespace Cbop

variable {σ : Type}

------------------------------------------------------------
-- The Tasks of a Group
------------------------------------------------------------

/- A process of the group, or what it was when it left. -/
structure Member where
  vars : Vars
  gone : Bool
deriving DecidableEq, Repr

/- A call of a region's begin or end. -/
inductive PprCall where
| pprBegin (id : Int)
| pprEnd (id : Int)
deriving DecidableEq, Repr

/-
  A call by one member, with what it finds outside. Other
  processes may have changed the state of the ports, which
  is therefore part of it.
-/
structure GroupCall (σ : Type) where
  member : Nat
  call : PprCall
  around : Around
  state : σ

/- The members after a call of `_BOP_ppr_begin`. -/
def afterBegin
    (group : List Member)
    (k : Nat)
    (b : Begun σ) :
    List Member :=
  group.set k ⟨b.caller.vars, false⟩ ++
    (b.child.map (fun c => ⟨c.vars, false⟩)).toList

/- The members after a call of `_BOP_ppr_end`. -/
def afterEnd
    (group : List Member)
    (k : Nat)
    (m : Member)
    (e : Ended σ) :
    List Member :=
  group.set k
      (match e.caller with
      | some p => ⟨p.vars, false⟩
      | none => { m with gone := true }) ++
    (e.understudy.map (fun u => ⟨u.vars, false⟩)).toList

/-
  A call of a member of the group. A process that is
  sequential again starts a group of its own.
-/
def groupStep
    (ports : List (Port σ))
    (group : List Member)
    (c : GroupCall σ) :
    Option (List Member) := do
  let m ← group[c.member]?
  if m.gone ∨ m.vars.taskStatus = .seq then
    none
  else
    let p : Process σ := ⟨m.vars, c.state⟩
    match c.call with
    | .pprBegin id =>
        match p.pprBegin ports c.around id with
        | .ret b => some (afterBegin group c.member b)
        | _ => none
    | .pprEnd id =>
        match p.pprEnd ports c.around id with
        | .ret e => some (afterEnd group c.member m e)
        | _ => none

/- The group that a begin in a sequential process starts. -/
def groupOf (b : Begun σ) : List Member :=
  ⟨b.caller.vars, false⟩ ::
    (b.child.map (fun c => ⟨c.vars, false⟩)).toList

def numbering
    (ports : List (Port σ))
    (b : Begun σ) :
    Machine (List Member) (GroupCall σ) where
  start := groupOf b
  step := groupStep ports

/- The member is a task of the group inside its region. -/
def Member.Inside (m : Member) : Prop :=
  m.gone = false ∧ m.vars.taskParallel

instance Member.decidableInside
    (m : Member) :
    Decidable m.Inside :=
  inferInstanceAs (Decidable (_ ∧ _))

/- `BOP_ppr_index() - spec_order`. -/
def Member.offset (m : Member) : Int :=
  m.vars.bopPprIndex - m.vars.specOrder

/- The call is a begin that is ignored as nested. -/
def Nested
    (group : List Member)
    (c : GroupCall σ) :
    Prop :=
  ∃ m id, group[c.member]? = some m ∧
    c.call = .pprBegin id ∧
    (m.vars.taskStatus = .main ∨
      (m.vars.taskStatus = .spec ∧ m.vars.pprPos ≠ .gap))

/-
  The numbering over the states of a run: one offset for all
  tasks inside their regions, at all times; the index
  `spec_order - (BOP_ppr_index() - sender)` of a task is the
  place of the task with the index `sender`; and different
  tasks have different indices.
-/
structure Aligned (visited : List Member → Prop) : Prop where
  same : ∀ s s', visited s → visited s' →
    ∀ m ∈ s, ∀ m' ∈ s', m.Inside → m'.Inside →
      m.offset = m'.offset
  sender : ∀ s s', visited s → visited s' →
    ∀ m ∈ s, ∀ m' ∈ s', m.Inside → m'.Inside →
      m.vars.specOrder -
        (m.vars.bopPprIndex - m'.vars.bopPprIndex) =
          m'.vars.specOrder
  distinct : ∀ s s', visited s → visited s' →
    ∀ (k : Nat) (m : Member) (k' : Nat) (m' : Member),
      s[k]? = some m → s'[k']? = some m' →
      m.Inside → m'.Inside → k ≠ k' →
        m.vars.bopPprIndex ≠ m'.vars.bopPprIndex

------------------------------------------------------------
-- What a Call Does to the Numbers
------------------------------------------------------------

/-
  The effect of a call on its caller's variables, and the
  variables of the process it forks. A begin that only
  counts is the understudy's, or nested.
-/
inductive VarsMove
    (nested : Prop)
    (v : Vars) :
    Vars → Option Vars → Prop where
| counts :
    v.taskStatus = .undy ∨ nested →
      VarsMove nested v
        { v with pprPos := .ppr, pprIndex := v.pprIndex + 1 }
        none
| enters
    {id : Int} :
    v.taskStatus = .spec → v.pprPos = .gap →
      VarsMove nested v
        { v with
          pprPos := .ppr
          pprIndex := v.pprIndex + 1
          pprStaticId := id }
        none
| forks
    {id : Int} :
    v.taskStatus = .spec → v.pprPos = .gap →
      VarsMove nested v
        { v with
          pprPos := .ppr
          pprIndex := v.pprIndex + 1
          pprStaticId := id }
        (some
          { v with
            pprIndex := v.pprIndex + 1
            pprStaticId := id
            specOrder := v.specOrder + 1 })
| stays
    {undy : Option Vars} :
    (∀ u ∈ undy, u.taskStatus = .undy ∧ u.specOrder = -1) →
      VarsMove nested v v undy
| leaves
    {w : Vars}
    {undy : Option Vars} :
    (w.taskStatus = .seq ∨ w.taskStatus = .undy) →
      w.specOrder = v.specOrder →
      (∀ u ∈ undy, u.taskStatus = .undy ∧
        u.specOrder = -1) →
      VarsMove nested v w undy

theorem varsMove_of_pprBegin
    {ports : List (Port σ)}
    {around : Around}
    {id : Int}
    {p : Process σ}
    {b : Begun σ}
    {nested : Prop}
    (hSeq : p.vars.taskStatus ≠ .seq)
    (hMode : p.vars.taskStatus = .spec →
      p.vars.bopMode = .parallel)
    (hNested : p.vars.taskStatus = .main ∨
      (p.vars.taskStatus = .spec ∧ p.vars.pprPos ≠ .gap) →
      nested)
    (h : p.pprBegin ports around id = .ret b) :
    VarsMove nested p.vars b.caller.vars
      (b.child.map Process.vars) := by
  by_cases hCounts : p.vars.taskStatus = .undy ∨
      p.vars.taskStatus = .main ∨
      (p.vars.taskStatus = .spec ∧ p.vars.pprPos ≠ .gap)
  · rw [Process.pprBegin_counts hCounts h]
    exact .counts (hCounts.imp_right hNested)
  · push Not at hCounts
    rcases hCounts with ⟨hUndy, hMain, hGap⟩
    have hSpec : p.vars.taskStatus = .spec := by
      cases hStatus : p.vars.taskStatus with
      | spec => rfl
      | seq => exact absurd hStatus hSeq
      | undy => exact absurd hStatus hUndy
      | main => exact absurd hStatus hMain
    rcases Process.pprBegin_enters hSpec (hGap hSpec)
        (hMode hSpec) h with ⟨hCaller, hChild⟩
    rw [hCaller]
    cases hc : b.child with
    | none => exact .enters hSpec (hGap hSpec)
    | some c =>
        rw [Option.map_some, hChild c hc]
        exact .forks hSpec (hGap hSpec)

/- A forked process as a new member. -/
def newcomer (child : Option Vars) : List Member :=
  (child.map (fun v => (⟨v, false⟩ : Member))).toList

/-
  A step of the group: the variables of one member move, and
  the process it forks comes last.
-/
inductive GroupMove
    (nested : Prop) :
    List Member → List Member → Prop where
| move
    {before after : List Member}
    {m w : Member}
    {child : Option Vars} :
    VarsMove nested m.vars w.vars child →
      GroupMove nested (before ++ m :: after)
        (before ++ w :: after ++ newcomer child)

theorem groupMove_of_set
    {nested : Prop}
    {group : List Member}
    {k : Nat}
    {m w : Member}
    {child : Option Vars}
    (hAt : group[k]? = some m)
    (hVars : VarsMove nested m.vars w.vars child) :
    GroupMove nested group
      (group.set k w ++ newcomer child) := by
  rcases List.getElem?_eq_some_iff.mp hAt with ⟨hk, hm⟩
  have hSplit : group =
      group.take k ++ m :: group.drop (k + 1) := by
    rw [← hm, List.getElem_cons_drop, List.take_append_drop]
  have hSet : group.set k w =
      group.take k ++ w :: group.drop (k + 1) := by
    rw [List.set_eq_take_append_cons_drop, if_pos hk]
  rw [hSet]
  nth_rewrite 1 [hSplit]
  exact .move hVars

/- A step is a begin or an end by a member that is there. -/
theorem call_of_step
    {ports : List (Port σ)}
    {group group' : List Member}
    {c : GroupCall σ}
    (h : groupStep ports group c = some group') :
    ∃ m, group[c.member]? = some m ∧ m.gone = false ∧
      m.vars.taskStatus ≠ .seq ∧
      ((∃ id b, c.call = .pprBegin id ∧
          Process.pprBegin ports c.around id
            (⟨m.vars, c.state⟩ : Process σ) = .ret b ∧
          group' = afterBegin group c.member b) ∨
        (∃ id e, c.call = .pprEnd id ∧
          Process.pprEnd ports c.around id
            (⟨m.vars, c.state⟩ : Process σ) = .ret e ∧
          group' = afterEnd group c.member m e)) := by
  unfold groupStep at h
  cases hAt : group[c.member]? with
  | none =>
      rw [hAt] at h
      cases h
  | some m =>
      simp only [hAt, Option.bind_eq_bind,
        Option.bind_some] at h
      split at h
      · cases h
      · rename_i hHere
        push Not at hHere
        refine ⟨m, rfl, by simpa using hHere.1, hHere.2, ?_⟩
        cases hCall : c.call with
        | pprBegin id =>
            simp only [hCall] at h
            cases hBegin : Process.pprBegin ports c.around id
                (⟨m.vars, c.state⟩ : Process σ) with
            | abort => simp [hBegin] at h
            | fault => simp [hBegin] at h
            | ret b =>
                simp only [hBegin, Option.some.injEq] at h
                exact .inl ⟨id, b, rfl, hBegin, h.symm⟩
        | pprEnd id =>
            simp only [hCall] at h
            cases hEnd : Process.pprEnd ports c.around id
                (⟨m.vars, c.state⟩ : Process σ) with
            | abort => simp [hEnd] at h
            | fault => simp [hEnd] at h
            | ret e =>
                simp only [hEnd, Option.some.injEq] at h
                exact .inr ⟨id, e, rfl, hEnd, h.symm⟩

theorem groupMove_of_step
    {ports : List (Port σ)}
    {group group' : List Member}
    {c : GroupCall σ}
    (hMode : ∀ m ∈ group, m.vars.taskStatus = .spec →
      m.vars.bopMode = .parallel)
    (h : groupStep ports group c = some group') :
    GroupMove (Nested group c) group group' := by
  rcases call_of_step h with
    ⟨m, hAt, _, hSeq, ⟨id, b, hCall, hBegin, rfl⟩ |
      ⟨id, e, _, hEnd, rfl⟩⟩
  · have hVars :
        VarsMove (Nested group c) m.vars b.caller.vars
          (b.child.map Process.vars) :=
      varsMove_of_pprBegin hSeq
        (hMode m (List.mem_of_getElem? hAt))
        (fun hNested => ⟨m, id, hAt, hCall, hNested⟩)
        hBegin
    have hMove := groupMove_of_set
      (w := Member.mk b.caller.vars false) hAt hVars
    unfold newcomer at hMove
    rw [Option.map_map] at hMove
    exact hMove
  · have hChild : ∀ u ∈ e.understudy.map Process.vars,
        u.taskStatus = .undy ∧ u.specOrder = -1 := by
      intro u hu
      rcases Option.mem_map.mp hu with ⟨q, hq, rfl⟩
      rw [Process.pprEnd_understudy hEnd hq]
      exact ⟨rfl, rfl⟩
    have hMove : ∀ w : Member,
        VarsMove (Nested group c) m.vars w.vars
          (e.understudy.map Process.vars) →
        GroupMove (Nested group c) group
          (group.set c.member w ++ (e.understudy.map
            (fun u => (⟨u.vars, false⟩ : Member))).toList) := by
      intro w hVars
      have hSet := groupMove_of_set hAt hVars
      unfold newcomer at hSet
      rw [Option.map_map] at hSet
      exact hSet
    unfold afterEnd
    cases hGone : e.caller with
    | none => exact hMove _ (.stays hChild)
    | some q =>
        apply hMove
        rcases Process.pprEnd_vars hEnd hGone with
          hSame | ⟨hLeft, hOrder, _⟩
        · simp only [hSame]
          exact .stays hChild
        · exact .leaves hLeft hOrder hChild

------------------------------------------------------------
-- The Places of the Tasks
------------------------------------------------------------

/- The process is a task of the group. -/
def Vars.IsTask (v : Vars) : Prop :=
  v.taskStatus = .main ∨ v.taskStatus = .spec

/- The process is a speculative task before its region. -/
def Vars.IsWaiting (v : Vars) : Prop :=
  v.taskStatus = .spec ∧ v.pprPos = .gap

theorem VarsMove.order
    {nested : Prop}
    {v w : Vars}
    {child : Option Vars}
    (h : VarsMove nested v w child) :
    w.specOrder = v.specOrder := by
  cases h with
  | leaves _ hOrder _ => exact hOrder
  | _ => rfl

/- Who is a task after a call was one before it. -/
theorem VarsMove.task
    {nested : Prop}
    {v w : Vars}
    {child : Option Vars}
    (h : VarsMove nested v w child)
    (hTask : w.IsTask) :
    w.taskStatus = v.taskStatus ∧ w.bopMode = v.bopMode ∧
      (w.pprPos = .ppr ∨ w = v) := by
  cases h with
  | leaves hLeft _ _ =>
      rcases hTask with hTask | hTask <;>
        rcases hLeft with hLeft | hLeft <;>
          rw [hTask] at hLeft <;> cases hLeft
  | stays _ => exact ⟨rfl, rfl, .inr rfl⟩
  | _ => exact ⟨rfl, rfl, .inl rfl⟩

theorem VarsMove.waiting
    {nested : Prop}
    {v w : Vars}
    {child : Option Vars}
    (h : VarsMove nested v w child)
    (hWaiting : w.IsWaiting) :
    w = v := by
  rcases h.task (.inr hWaiting.1) with ⟨_, _, hPos | hSame⟩
  · rw [hWaiting.2] at hPos
    cases hPos
  · exact hSame

/- A new process: the next task, or the understudy. -/
theorem VarsMove.child
    {nested : Prop}
    {v w u : Vars}
    (h : VarsMove nested v w (some u)) :
    (u.taskStatus = .undy ∧ u.specOrder = -1) ∨
      (v.IsWaiting ∧ ¬w.IsWaiting ∧ u.IsWaiting ∧
        u.bopMode = v.bopMode ∧
        u.specOrder = v.specOrder + 1 ∧
        u.bopPprIndex = v.bopPprIndex + 1) := by
  cases h with
  | stays hUndy => exact .inl (hUndy u rfl)
  | leaves _ _ hUndy => exact .inl (hUndy u rfl)
  | forks hSpec hPos =>
      right
      simp [Vars.IsWaiting, Vars.bopPprIndex, hSpec, hPos]

/-
  Member `a` comes before member `b`: its place is lower if
  `b` has one, and if it has yet to fork then `b` has none.
-/
def Before (a b : Member) : Prop :=
  (0 ≤ b.vars.specOrder →
    a.vars.specOrder < b.vars.specOrder) ∧
  (a.vars.IsWaiting → b.vars.specOrder < 0)

/- What holds of the members of a group at all times. -/
structure GroupInv (group : List Member) : Prop where
  inside : ∀ m ∈ group, m.vars.taskStatus = .main →
    m.vars.pprPos = .ppr
  mode : ∀ m ∈ group, m.vars.taskStatus = .spec →
    m.vars.bopMode = .parallel
  place : ∀ m ∈ group, m.vars.IsTask →
    0 ≤ m.vars.specOrder
  sorted : group.Pairwise Before

/- A property of members kept by the one that moves. -/
theorem forall_of_move
    {q : Member → Prop}
    {before after : List Member}
    {m w : Member}
    {child : Option Vars}
    (h : ∀ a ∈ before ++ m :: after, q a)
    (hOwn : q m → q w)
    (hChild : q m → ∀ u, child = some u → q ⟨u, false⟩) :
    ∀ a ∈ before ++ w :: after ++ newcomer child, q a := by
  have hm : q m := h m (by simp)
  intro a ha
  rcases List.mem_append.mp ha with ha | ha
  · rcases List.mem_append.mp ha with ha | ha
    · exact h a (List.mem_append_left _ ha)
    · rcases List.mem_cons.mp ha with rfl | ha
      · exact hOwn hm
      · exact h a (by simp [ha])
  · cases child with
    | none => cases ha
    | some u =>
        have hEq : a = ⟨u, false⟩ :=
          List.mem_singleton.mp ha
        exact hEq ▸ hChild hm u rfl

/- The members stay in the order of their places. -/
theorem sorted_of_move
    {nested : Prop}
    {before after : List Member}
    {m w : Member}
    {child : Option Vars}
    (hInv : GroupInv (before ++ m :: after))
    (h : VarsMove nested m.vars w.vars child) :
    (before ++ w :: after ++ newcomer child).Pairwise
      Before := by
  have hSorted := hInv.sorted
  rw [List.pairwise_append, List.pairwise_cons] at hSorted
  rcases hSorted with
    ⟨hBefore, ⟨hLater, hAfter⟩, hAcross⟩
  have hOwn : (before ++ w :: after).Pairwise Before := by
    rw [List.pairwise_append, List.pairwise_cons]
    refine ⟨hBefore, ⟨?_, hAfter⟩, ?_⟩
    · intro b hb
      have hOld := hLater b hb
      constructor
      · rw [h.order]
        exact hOld.1
      · intro hWaiting
        exact hOld.2 (h.waiting hWaiting ▸ hWaiting)
    · intro a ha b hb
      rcases List.mem_cons.mp hb with rfl | hb
      · have hOld := hAcross a ha m (by simp)
        unfold Before
        rw [h.order]
        exact hOld
      · exact hAcross a ha b (by simp [hb])
  cases child with
  | none =>
      rw [show newcomer none = [] from rfl, List.append_nil]
      exact hOwn
  | some u =>
      rw [List.pairwise_append]
      refine ⟨hOwn, List.pairwise_singleton _ _, ?_⟩
      intro a ha b hb
      have hEq : b = ⟨u, false⟩ := List.mem_singleton.mp hb
      subst hEq
      rcases h.child with
        ⟨_, hOrder⟩ | ⟨hFrom, hMoved, _, _, hOrder, _⟩
      · -- the understudy has no place
        unfold Before
        simp only
        omega
      · have hPlace : 0 ≤ m.vars.specOrder :=
          hInv.place m (by simp) (.inr hFrom.1)
        rcases List.mem_append.mp ha with ha | ha
        · have hOld := hAcross a ha m (by simp)
          have hLess := hOld.1 hPlace
          constructor
          · simp only
            omega
          · intro hWaiting
            have := hOld.2 hWaiting
            omega
        · rcases List.mem_cons.mp ha with rfl | ha
          · have hSame := h.order
            constructor
            · simp only
              omega
            · intro hWaiting
              exact absurd hWaiting hMoved
          · -- whoever came after a task that forks is no task
            have hNone := (hLater a ha).2 hFrom
            constructor
            · simp only
              omega
            · intro hWaiting
              have := hInv.place a (by simp [ha])
                (.inr hWaiting.1)
              omega

theorem groupInv_step
    {nested : Prop}
    {group group' : List Member}
    (hInv : GroupInv group)
    (h : GroupMove nested group group') :
    GroupInv group' := by
  cases h with
  | @move before after m w child hVars =>
      have hSorted := sorted_of_move hInv hVars
      constructor
      · apply forall_of_move hInv.inside
        · intro hOld hMain
          rcases hVars.task (.inl hMain) with
            ⟨hStatus, _, hPos | hSame⟩
          · exact hPos
          · rw [hSame] at hMain ⊢
            exact hOld hMain
        · intro _ u hu hMain
          subst hu
          rcases hVars.child with ⟨hUndy, _⟩ | ⟨_, _, hNew, _⟩
          · simp [hUndy] at hMain
          · have := hNew.1
            simp [this] at hMain
      · apply forall_of_move hInv.mode
        · intro hOld hSpec
          rcases hVars.task (.inr hSpec) with
            ⟨hStatus, hMode, _⟩
          rw [hMode]
          exact hOld (hStatus ▸ hSpec)
        · intro hOld u hu hSpec
          subst hu
          rcases hVars.child with
            ⟨hUndy, _⟩ | ⟨hFrom, _, _, hMode, _, _⟩
          · simp [hUndy] at hSpec
          · simp only [hMode]
            exact hOld hFrom.1
      · apply forall_of_move hInv.place
        · intro hOld hTask
          rw [hVars.order]
          have hStatus := (hVars.task hTask).1
          apply hOld
          unfold Vars.IsTask
          rw [← hStatus]
          exact hTask
        · intro hOld u hu hTask
          subst hu
          rcases hVars.child with
            ⟨hUndy, _⟩ | ⟨hFrom, _, _, _, hOrder, _⟩
          · unfold Vars.IsTask at hTask
            simp [hUndy] at hTask
          · have := hOld (.inr hFrom.1)
            simp only [hOrder]
            omega
      · exact hSorted

------------------------------------------------------------
-- The Offset of the Tasks
------------------------------------------------------------

/- All tasks of the group have the same offset. -/
def OneOffset
    (base : Int)
    (group : List Member) :
    Prop :=
  ∀ m ∈ group, m.vars.IsTask → m.offset = base

theorem VarsMove.index
    {nested : Prop}
    {v w : Vars}
    {child : Option Vars}
    (h : VarsMove nested v w child)
    (hNested : ¬nested)
    (hTask : w.IsTask) :
    w.bopPprIndex = v.bopPprIndex := by
  cases h with
  | counts hUndy =>
      have hUndy := hUndy.resolve_right hNested
      unfold Vars.IsTask at hTask
      simp [hUndy] at hTask
  | enters _ hPos => simp [Vars.bopPprIndex, hPos]
  | forks _ hPos => simp [Vars.bopPprIndex, hPos]
  | stays _ => rfl
  | leaves hLeft _ _ =>
      rcases hTask with hTask | hTask <;>
        rcases hLeft with hLeft | hLeft <;>
          rw [hTask] at hLeft <;> cases hLeft

theorem oneOffset_step
    {nested : Prop}
    {base : Int}
    {group group' : List Member}
    (hNested : ¬nested)
    (hBase : OneOffset base group)
    (h : GroupMove nested group group') :
    OneOffset base group' := by
  cases h with
  | @move before after m w child hVars =>
      apply forall_of_move hBase
      · intro hOld hTask
        have hIndex := hVars.index hNested hTask
        have hStatus := (hVars.task hTask).1
        unfold Member.offset
        rw [hIndex, hVars.order]
        apply hOld
        unfold Vars.IsTask
        rw [← hStatus]
        exact hTask
      · intro hOld u hu hTask
        subst hu
        rcases hVars.child with
          ⟨hUndy, _⟩ | ⟨hFrom, _, _, _, hOrder, hIndex⟩
        · unfold Vars.IsTask at hTask
          simp [hUndy] at hTask
        · have := hOld (.inr hFrom.1)
          unfold Member.offset at this ⊢
          simp only
          omega

/- A nested begin moves the offset of its task by one. -/
theorem nested_step
    {ports : List (Port σ)}
    {group group' : List Member}
    {c : GroupCall σ}
    (hInv : GroupInv group)
    (hNested : Nested group c)
    (h : groupStep ports group c = some group') :
    ∃ m ∈ group, ∃ w ∈ group', m.Inside ∧ w.Inside ∧
      w.offset = m.offset + 1 := by
  rcases hNested with ⟨m, id, hAt, hCall, hStatus⟩
  rcases call_of_step h with
    ⟨m', hAt', hHere, _, ⟨id', b, _, hBegin, rfl⟩ |
      ⟨id', e, hEnd, _⟩⟩
  · have hEq : m' = m := Option.some.inj (hAt'.symm.trans hAt)
    subst hEq
    have hMem : m' ∈ group := List.mem_of_getElem? hAt
    have hTask : m'.vars.IsTask :=
      hStatus.imp_right And.left
    have hPos : m'.vars.pprPos = .ppr := by
      rcases hStatus with hMain | ⟨_, hPos⟩
      · exact hInv.inside m' hMem hMain
      · cases hp : m'.vars.pprPos with
        | ppr => rfl
        | gap => exact absurd hp hPos
    have hCaller := Process.pprBegin_counts (.inr hStatus)
      hBegin
    have hSome := List.getElem?_eq_some_iff.mp hAt
    refine ⟨m', hMem, ⟨b.caller.vars, false⟩, ?_,
      ⟨hHere, hPos, hTask⟩, ?_, ?_⟩
    · exact List.mem_append_left _
        (List.mem_set hSome.1 _)
    · rw [hCaller]
      exact ⟨rfl, rfl, hTask⟩
    · rw [hCaller]
      simp only [Member.offset, Vars.bopPprIndex,
        Process.modify_vars, hPos, reduceCtorEq, if_false]
      omega
  · rw [hCall] at hEnd
    cases hEnd

------------------------------------------------------------
-- Runs of a Group
------------------------------------------------------------

/- The places once given stay as they are. -/
theorem places_of_exec
    {ports : List (Port σ)}
    {b : Begun σ}
    {trace : List (GroupCall σ)}
    {s sEnd : List Member}
    (hInv : GroupInv s)
    (hRun : (numbering ports b).exec s trace = some sEnd) :
    s.map (fun m => m.vars.specOrder) <+:
      sEnd.map (fun m => m.vars.specOrder) := by
  induction trace generalizing s with
  | nil =>
      rw [Machine.exec_nil, Option.some.injEq] at hRun
      exact hRun ▸ List.prefix_rfl
  | cons c rest ih =>
      rcases Machine.exec_cons_eq_some.mp hRun with
        ⟨s', hStep, hRest⟩
      have hMove := groupMove_of_step hInv.mode hStep
      have hHead : s.map (fun m => m.vars.specOrder) <+:
          s'.map (fun m => m.vars.specOrder) := by
        cases hMove with
        | @move before after m w child hVars =>
            refine ⟨(newcomer child).map
              (fun m => m.vars.specOrder), ?_⟩
            simp [hVars.order]
      exact hHead.trans (ih (groupInv_step hInv hMove) hRest)

theorem place_at_end
    {ports : List (Port σ)}
    {b : Begun σ}
    {trace : List (GroupCall σ)}
    {s sEnd : List Member}
    {k : Nat}
    {m : Member}
    (hInv : GroupInv s)
    (hRun : (numbering ports b).exec s trace = some sEnd)
    (hAt : s[k]? = some m) :
    ∃ n, sEnd[k]? = some n ∧
      n.vars.specOrder = m.vars.specOrder := by
  rcases places_of_exec hInv hRun with ⟨more, hMore⟩
  have hPlace :
      (sEnd.map (fun m => m.vars.specOrder))[k]? =
        some m.vars.specOrder := by
    rw [← hMore, List.getElem?_append_left, List.getElem?_map,
      hAt]
    · rfl
    · rw [List.length_map]
      exact (List.getElem?_eq_some_iff.mp hAt).1
  rw [List.getElem?_map, Option.map_eq_some_iff] at hPlace
  exact hPlace

/- Two members of a group do not share a place. -/
theorem GroupInv.place_ne
    {group : List Member}
    (hInv : GroupInv group)
    {k k' : Nat}
    {m m' : Member}
    (hAt : group[k]? = some m)
    (hAt' : group[k']? = some m')
    (hPlace : 0 ≤ m.vars.specOrder)
    (hNe : k ≠ k') :
    m.vars.specOrder ≠ m'.vars.specOrder := by
  intro hEq
  have hSorted := List.pairwise_iff_getElem.mp hInv.sorted
  rcases List.getElem?_eq_some_iff.mp hAt with ⟨hk, rfl⟩
  rcases List.getElem?_eq_some_iff.mp hAt' with ⟨hk', rfl⟩
  rcases Nat.lt_or_gt_of_ne hNe with hLt | hLt
  · have := (hSorted k k' hk hk' hLt).1 (by omega)
    omega
  · have := (hSorted k' k hk' hk hLt).1 hPlace
    omega

/- MAIN, and the task it may have forked. -/
theorem groupInv_groupOf
    {ports : List (Port σ)}
    {around : Around}
    {id : Int}
    {p : Process σ}
    {b : Begun σ}
    (hSeq : p.vars.taskStatus = .seq)
    (hBegin : p.pprBegin ports around id = .ret b) :
    GroupInv (groupOf b) ∧
      OneOffset (p.vars.pprIndex + 1) (groupOf b) := by
  rcases Process.pprBegin_starts hSeq hBegin with
    ⟨v, hv, hCaller, hChild⟩
  have hMain : v.taskStatus = .main := by rw [hv]
  have hPos : v.pprPos = .ppr := by rw [hv]
  have hOrder : v.specOrder = 0 := by rw [hv]
  have hIndex : v.pprIndex = p.vars.pprIndex + 1 := by
    rw [hv]
  cases hNone : b.child with
  | none =>
      have hGroup : groupOf b = [⟨b.caller.vars, false⟩] := by
        unfold groupOf
        rw [hNone]
        rfl
      have hTask : b.caller.vars.IsTask →
          b.caller.vars = v := by
        intro hTask
        rcases hCaller with hSame | ⟨_, hLeft⟩
        · exact hSame
        · rw [hLeft] at hTask
          rcases hTask with hTask | hTask <;> cases hTask
      rw [hGroup]
      refine ⟨⟨?_, ?_, ?_, List.pairwise_singleton _ _⟩, ?_⟩
      · intro m hm hStatus
        rw [List.mem_singleton.mp hm] at hStatus ⊢
        rw [hTask (.inl hStatus)]
        exact hPos
      · intro m hm hStatus
        rw [List.mem_singleton.mp hm] at hStatus ⊢
        rw [hTask (.inr hStatus), hMain] at hStatus
        cases hStatus
      · intro m hm hStatus
        rw [List.mem_singleton.mp hm] at hStatus ⊢
        rw [hTask hStatus, hOrder]
      · intro m hm hStatus
        rw [List.mem_singleton.mp hm] at hStatus ⊢
        unfold Member.offset Vars.bopPprIndex
        rw [hTask hStatus, if_neg (by simp [hPos]), hOrder,
          hIndex]
        omega
  | some c =>
      rcases hChild c hNone with ⟨hMode, hc⟩
      have hSame : b.caller.vars = v := by
        rcases hCaller with hSame | ⟨hGone, _⟩
        · exact hSame
        · rw [hNone] at hGone
          cases hGone
      have hGroup : groupOf b =
          [⟨v, false⟩, ⟨c.vars, false⟩] := by
        unfold groupOf
        rw [hNone, hSame]
        rfl
      rw [hGroup, hc]
      refine ⟨⟨?_, ?_, ?_, ?_⟩, ?_⟩
      · simp [hPos]
      · simp [hMode, hMain]
      · simp [hOrder]
      · simp [Before, Vars.IsWaiting, hOrder, hMain]
      · simp only [OneOffset, List.mem_cons,
          List.not_mem_nil, or_false, forall_eq_or_imp,
          forall_eq, Member.offset, Vars.bopPprIndex, hPos,
          hOrder, hIndex]
        constructor <;> intro _ <;> simp

/-
  Along a run of the group the numbering is aligned exactly
  if no begin of the run was ignored as nested.
-/
theorem numbering_aligned_iff
    {ports : List (Port σ)}
    {around : Around}
    {id : Int}
    {p : Process σ}
    {b : Begun σ}
    {trace : List (GroupCall σ)}
    {sEnd : List Member}
    (hSeq : p.vars.taskStatus = .seq)
    (hBegin : p.pprBegin ports around id = .ret b)
    (hRun : (numbering ports b).exec (groupOf b) trace =
      some sEnd) :
    Aligned ((numbering ports b).Visits (groupOf b) trace) ↔
      ∀ s c s',
        (numbering ports b).Takes (groupOf b) trace s c s' →
          ¬Nested s c := by
  rcases groupInv_groupOf hSeq hBegin with ⟨hInv, hBase⟩
  rcases Machine.exec_invariant (M := numbering ports b)
      GroupInv
      (fun s c s' hOld _ hStep =>
        groupInv_step hOld (groupMove_of_step hOld.mode hStep))
      hInv
      (fun s c s' (_ :
        (numbering ports b).Takes (groupOf b) trace s c s') =>
          (trivial : Machine.anyStep s c)) with
    ⟨hAll, hAtEnd⟩
  constructor
  · intro hAligned s c s' hTakes hNested
    rcases hTakes.visits with ⟨hVisits, hVisits'⟩
    rcases nested_step (hAll s hVisits) hNested
        hTakes.step_eq with
      ⟨m, hm, w, hw, hInside, hInside', hOffset⟩
    have hSame := hAligned.same s s' hVisits hVisits' m hm w
      hw hInside hInside'
    omega
  · intro hNested
    have hOffset : ∀ s,
        (numbering ports b).Visits (groupOf b) trace s →
        ∀ m ∈ s, m.Inside →
          m.offset = p.vars.pprIndex + 1 := by
      intro s hVisits m hm hInside
      have hBoth := (Machine.exec_invariant
        (M := numbering ports b)
        (fun s => GroupInv s ∧
          OneOffset (p.vars.pprIndex + 1) s)
        (fun s c s' hOld hOk hStep =>
          have hMove := groupMove_of_step hOld.1.mode hStep
          ⟨groupInv_step hOld.1 hMove,
            oneOffset_step hOk hOld.2 hMove⟩)
        ⟨hInv, hBase⟩ hNested).1 s hVisits
      exact hBoth.2 m hm hInside.2.2
    constructor
    · intro s s' hs hs' m hm m' hm' hIn hIn'
      rw [hOffset s hs m hm hIn, hOffset s' hs' m' hm' hIn']
    · intro s s' hs hs' m hm m' hm' hIn hIn'
      have h1 := hOffset s hs m hm hIn
      have h2 := hOffset s' hs' m' hm' hIn'
      unfold Member.offset at h1 h2
      omega
    · -- equal indices would be equal places at the end
      intro s s' hs hs' k m k' m' hAt hAt' hIn hIn' hNe hEq
      have hMem := List.mem_of_getElem? hAt
      have h1 := hOffset s hs m hMem hIn
      have h2 := hOffset s' hs' m'
        (List.mem_of_getElem? hAt') hIn'
      unfold Member.offset at h1 h2
      have hPlace := (hAll s hs).place m hMem hIn.2.2
      rcases hs.rest hRun with ⟨rest, hRest⟩
      rcases hs'.rest hRun with ⟨rest', hRest'⟩
      rcases place_at_end (hAll s hs) hRest hAt with
        ⟨n, hn, hSame⟩
      rcases place_at_end (hAll s' hs') hRest' hAt' with
        ⟨n', hn', hSame'⟩
      exact (hAtEnd sEnd hRun).place_ne hn hn' (by omega) hNe
        (by omega)

------------------------------------------------------------
-- A Group of Two Tasks
------------------------------------------------------------

/- MAIN in region 1, and the task it forked in a gap. -/
def mainAndChild : Begun Unit where
  caller :=
    ⟨{ freshVars with
      taskStatus := .main
      pprPos := .ppr
      pprIndex := 1
      pprStaticId := 1 }, ()⟩
  child := some
    ⟨{ freshVars with
      taskStatus := .spec
      pprPos := .gap
      specOrder := 1
      pprIndex := 1
      pprStaticId := 1 }, ()⟩

theorem mainAndChild_begun :
    Process.pprBegin [] aroundTwo 1
      (⟨freshVars, ()⟩ : Process Unit) = .ret mainAndChild := rfl

/- Task 1 enters region 1. -/
def secondBegins : GroupCall Unit :=
  ⟨1, .pprBegin 1, aroundTwo, ()⟩

/- MAIN begins region 2 inside region 1. -/
def nestedBegin : GroupCall Unit :=
  ⟨0, .pprBegin 2, aroundTwo, ()⟩

/- With one nested begin both tasks have the index two. -/
theorem nestedBegin_same_index :
    ∃ sEnd,
      (numbering [] mainAndChild).exec (groupOf mainAndChild)
        [secondBegins, nestedBegin] = some sEnd ∧
      (∃ m w, sEnd[0]? = some m ∧ sEnd[1]? = some w ∧
        m.Inside ∧ w.Inside ∧
        m.vars.bopPprIndex = 2 ∧ w.vars.bopPprIndex = 2) ∧
      ¬Aligned ((numbering [] mainAndChild).Visits
        (groupOf mainAndChild) [secondBegins, nestedBegin]) := by
  refine ⟨_, rfl, ⟨_, _, rfl, rfl, ?_⟩, ?_⟩
  · decide
  · intro hAligned
    have hVisits := (Machine.takes_tail
      (M := numbering [] mainAndChild) (s := groupOf mainAndChild)
      (j := secondBegins) rfl
      (Machine.takes_head (i := nestedBegin) rfl [])).visits.2
    exact hAligned.distinct _ _ hVisits hVisits 0 _ 1 _ rfl
      rfl (by decide) (by decide) (by decide) (by decide)

/- Without it they are in step. -/
theorem numbering_aligned_iff_two :
    Aligned ((numbering [] mainAndChild).Visits
      (groupOf mainAndChild) [secondBegins]) := by
  apply (numbering_aligned_iff rfl mainAndChild_begun rfl).mpr
  intro s c s' hTakes
  rcases hTakes with ⟨s1, _, hHere | hLater⟩
  · rcases hHere with ⟨rfl, rfl, _⟩
    intro hNested
    rcases hNested with ⟨m, id, hAt, _, hStatus⟩
    cases hAt
    revert hStatus
    decide
  · exact absurd hLater Machine.not_takes_nil

end Cbop
