import Cbop.PostWait.Channel

/-
  One process of `bop_ppr.c`: what `_BOP_ppr_begin` and
  `_BOP_ppr_end` do to the variables the process has its own
  copy of, through the ports registered in `bop_ports.c`.

  What a call finds outside the process is a parameter: how
  `fork` ends, and the value of `partial_size` at each of
  its reads. A call that waits for another task is modelled
  by what it does once the wait is over. The state `σ` is
  what the port callbacks of the process read and write.

  The process group never changes after `BOP_init`, so the
  assertions on `getpgrp` hold.

  Main declarations:
    * `Vars`, `Port`, `Process`
    * `Process.pprBegin`, `Process.pprEnd`
    * `Process.pprTaskCommit`, `Process.postPprUndy`
-/

namespace Cbop

------------------------------------------------------------
-- The Variables of a Process
------------------------------------------------------------

/- `ppr_pos_t`; nothing sets the position `PSEQ`. -/
inductive PprPos where
| ppr
| gap
deriving DecidableEq, Repr

/- `bop_mode_t`. -/
inductive BopMode where
| serial
| parallel
deriving DecidableEq, Repr

/-
  The variables of `bop_ppr.c`, and the group size, which
  only changes between groups.
-/
structure Vars where
  taskStatus : TaskStatus
  pprPos : PprPos
  bopMode : BopMode
  specOrder : Int
  pprIndex : Int
  pprStaticId : Int
  undyPprCount : Int
  groupSize : Nat
deriving DecidableEq, Repr

/- `BOP_ppr_index`: in a gap, the index of the next region. -/
def Vars.bopPprIndex (v : Vars) : Int :=
  if v.pprPos = .gap then v.pprIndex + 1 else v.pprIndex

/- The macro `task_parallel_p`: inside a region of a group. -/
def Vars.taskParallel (v : Vars) : Prop :=
  v.pprPos = .ppr ∧
    (v.taskStatus = .main ∨ v.taskStatus = .spec)

instance (v : Vars) : Decidable v.taskParallel :=
  inferInstanceAs (Decidable (_ ∧ _))

------------------------------------------------------------
-- Ports
------------------------------------------------------------

variable {σ τ : Type}

/- A callback, which may read the variables. -/
abbrev Callback (σ : Type) := Vars → σ → Outcome σ

/-
  `bop_port_t`, with `none` for `NULL`. The callbacks that
  no modelled function calls are left out.
-/
structure Port (σ : Type) where
  pprGroupInit : Option (Callback σ) := none
  pprTaskInit : Option (Callback σ) := none
  pprCheckCorrectness :
    Option (Vars → σ → Outcome (σ × Bool)) := none
  dataCommit : Option (Callback σ) := none
  taskGroupCommit : Option (Callback σ) := none
  taskGroupSuccFini : Option (Callback σ) := none
  undyInit : Option (Callback σ) := none
  undySuccFini : Option (Callback σ) := none
  onMainComplete : Option (Callback σ) := none

/- `port_call`. -/
def portCall (func : Option (Callback σ)) : Callback σ :=
  match func with
  | some f => f
  | none => fun _ st => pure st

/-
  The loop `port_call( bop_ports[i]->callback )` over the
  registered ports.
-/
def callPorts
    (ports : List (Port σ))
    (callback : Port σ → Option (Callback σ))
    (v : Vars)
    (st : σ) :
    Outcome σ :=
  ports.foldlM
    (fun st port => portCall (callback port) v st) st

/-
  `ppr_check_correctness`: stops at the first port that does
  not pass. No port reports conflicts.
-/
def pprCheckCorrectness
    (v : Vars) :
    List (Port σ) → σ → Outcome (σ × Bool)
| [], st => pure (st, true)
| port :: rest, st => do
    let (st, passed) ←
      (match port.pprCheckCorrectness with
      | some check => check v st
      | none => pure (st, true))
    if passed then
      pprCheckCorrectness v rest st
    else
      pure (st, false)

------------------------------------------------------------
-- The Start of a Region
------------------------------------------------------------

/- A process: its variables and the state of its ports. -/
structure Process (σ : Type) where
  vars : Vars
  state : σ

/- How `fork` ends. -/
inductive Fork where
| failed
| done
deriving DecidableEq, Repr

/-
  What a call finds outside: the end of its `fork`, and
  `partial_size` at the read with the given number.
-/
structure Around where
  forked : Fork
  partialSize : Nat → Nat

/- Change the variables of a process. -/
def Process.modify
    (p : Process σ)
    (f : Vars → Vars) :
    Process σ :=
  { p with vars := f p.vars }

/- Let the ports run a callback. -/
def Process.call
    (p : Process σ)
    (ports : List (Port σ))
    (callback : Port σ → Option (Callback σ)) :
    Outcome (Process σ) := do
  let st ← callPorts ports callback p.vars p.state
  pure { p with state := st }

/-
  `_ppr_group_init`, where the ports still see the status
  `SEQ`.
-/
def Process.pprGroupInit
    (ports : List (Port σ))
    (p : Process σ) :
    Outcome (Process σ) := do
  let p := p.modify (fun v => { v with specOrder := 0 })
  let p ← p.call ports Port.pprGroupInit
  pure (p.modify (fun v => { v with taskStatus := .main }))

/- `_ppr_task_init`. -/
def Process.pprTaskInit
    (ports : List (Port σ))
    (p : Process σ) :
    Outcome (Process σ) :=
  match p.vars.taskStatus with
  | .main =>
      if p.vars.specOrder = 0 then
        p.call ports Port.pprTaskInit
      else
        .fault
  | .spec =>
      (p.modify (fun v =>
        { v with specOrder := v.specOrder + 1 })).call
          ports Port.pprTaskInit
  | .undy => .fault
  | .seq => .fault

/-
  After `_BOP_ppr_begin`: the caller, the task it forked,
  and the size it gave to `partial_group_set_size`.
-/
structure Begun (σ : Type) where
  caller : Process σ
  child : Option (Process σ) := none
  newSize : Option Int := none

/- `_BOP_ppr_begin` from `ppr_static_id = id` on. -/
def Process.pprSpawn
    (ports : List (Port σ))
    (around : Around)
    (id : Int)
    (p : Process σ) :
    Outcome (Begun σ) :=
  let p := p.modify (fun v => { v with pprStaticId := id })
  if p.vars.bopMode = .serial then do
    let p ← p.pprTaskInit ports
    pure { caller := p }
  else if p.vars.specOrder ≥
      (around.partialSize 0 : Int) - 1 then
    -- no spawn when reaching the group size
    pure { caller := p }
  else
    match around.forked with
    | .failed =>
        if p.vars.taskStatus = .main then
          pure { caller := p.modify (fun v =>
            { v with taskStatus := .seq
                     bopMode := .serial }) }
        else
          pure { caller := p
                 newSize := some (p.vars.specOrder + 1) }
    | .done => do
        let senior ←
          (if p.vars.taskStatus = .main then
            p.pprTaskInit ports
          else
            pure p)
        let child ←
          (p.modify (fun v =>
            { v with taskStatus := .spec
                     pprPos := .gap })).pprTaskInit ports
        pure { caller := senior, child := some child }

/- `_BOP_ppr_begin`. -/
def Process.pprBegin
    (ports : List (Port σ))
    (around : Around)
    (id : Int)
    (p : Process σ) :
    Outcome (Begun σ) :=
  let oldPos := p.vars.pprPos
  let p := p.modify (fun v =>
    { v with pprPos := .ppr, pprIndex := v.pprIndex + 1 })
  match p.vars.taskStatus with
  | .undy => pure { caller := p }
  | .seq => do
      let p ← p.pprGroupInit ports
      p.pprSpawn ports around id
  | .spec =>
      if oldPos ≠ .gap then
        -- nested, ignored
        pure { caller := p }
      else
        p.pprSpawn ports around id
  | .main => pure { caller := p }

------------------------------------------------------------
-- The End of a Region
------------------------------------------------------------

/- After `_BOP_ppr_end`: the caller, unless it has exited. -/
structure Ended (σ : Type) where
  caller : Option (Process σ)
  understudy : Option (Process σ) := none

/-
  `_ppr_check_correctness`: true if the task goes on. A
  speculative task that fails leaves in `BOP_abort_spec`,
  which does nothing in serial mode.
-/
def Process.checkCorrectness
    (ports : List (Port σ))
    (p : Process σ) :
    Outcome (Process σ × Bool) := do
  let (st, passed) ←
    pprCheckCorrectness p.vars ports p.state
  let p := { p with state := st }
  if p.vars.taskStatus = .main ∧ passed = false then
    .fault
  else
    pure (p, passed || p.vars.bopMode = .serial)

/- `_task_group_commit`. -/
def Process.taskGroupCommit
    (ports : List (Port σ))
    (p : Process σ) :
    Outcome (Option (Process σ)) :=
  if p.vars.taskStatus = .main ∧ p.vars.bopMode ≠ .serial then
    -- the understudy has run ahead
    pure none
  else do
    let p ← p.call ports Port.taskGroupCommit
    let p ← p.call ports Port.taskGroupSuccFini
    pure (some (p.modify (fun v =>
      { v with taskStatus := .seq })))

/-
  The last test of `ppr_task_commit`: the last task of the
  group commits it, the others leave.
-/
def Process.commitIfLast
    (ports : List (Port σ))
    (psize : Nat)
    (p : Process σ) :
    Outcome (Option (Process σ)) :=
  if p.vars.specOrder = (psize : Int) - 1 then
    p.taskGroupCommit ports
  else
    pure none

/-
  `ppr_task_commit`, with its three reads of the group's
  partial size.
-/
def Process.pprTaskCommit
    (ports : List (Port σ))
    (around : Around)
    (p : Process σ) :
    Outcome (Option (Process σ)) :=
  if p.vars.specOrder ≥ (around.partialSize 0 : Int) then
    pure none
  else do
    let (p, goesOn) ← p.checkCorrectness ports
    if goesOn = false then
      pure none
    else if p.vars.specOrder <
        (around.partialSize 1 : Int) - 1 then do
      let p ← p.call ports Port.dataCommit
      if p.vars.bopMode = .serial then
        pure (some p)
      else
        p.commitIfLast ports (around.partialSize 2)
    else
      p.commitIfLast ports (around.partialSize 2)

/- `post_ppr_undy`. -/
def Process.postPprUndy
    (ports : List (Port σ))
    (around : Around)
    (p : Process σ) :
    Outcome (Process σ) :=
  let p := p.modify (fun v =>
    { v with undyPprCount := v.undyPprCount + 1 })
  if p.vars.undyPprCount <
      (around.partialSize 0 : Int) - 1 then
    pure p
  else do
    -- the finish line
    let p ← p.call ports Port.undySuccFini
    pure (p.modify (fun v =>
      { v with taskStatus := .seq, pprPos := .gap }))

/- The child of the `fork` in `spawn_undy`. -/
def Process.becomeUndy
    (ports : List (Port σ))
    (p : Process σ) :
    Outcome (Process σ) :=
  (p.modify (fun v =>
    { v with taskStatus := .undy
             pprPos := .gap
             specOrder := -1
             undyPprCount := 0 })).call ports Port.undyInit

/- `_BOP_ppr_end`. -/
def Process.pprEnd
    (ports : List (Port σ))
    (around : Around)
    (id : Int)
    (p : Process σ) :
    Outcome (Ended σ) :=
  if p.vars.pprPos = .gap ∨ p.vars.pprStaticId ≠ id then
    -- unmatched, ignored
    pure { caller := some p }
  else
    match p.vars.taskStatus with
    | .seq => pure { caller := some p }
    | .main => do
        let p ← p.call ports Port.onMainComplete
        if p.vars.bopMode = .serial then do
          let p ← p.pprTaskCommit ports around
          pure { caller := p }
        else
          match around.forked with
          | .failed =>
              -- MAIN takes the place of the understudy
              pure { caller := some (p.modify (fun v =>
                { v with taskStatus := .seq
                         bopMode := .serial })) }
          | .done => do
              let undy ← p.becomeUndy ports
              let p ← p.pprTaskCommit ports around
              pure { caller := p, understudy := some undy }
    | .spec => do
        let p ← p.pprTaskCommit ports around
        pure { caller := p }
    | .undy => do
        let p ← p.postPprUndy ports around
        pure { caller := some (p.modify (fun v =>
          { v with pprPos := .gap })) }

------------------------------------------------------------
-- Control Variables Across the Ports
------------------------------------------------------------

@[simp] theorem Process.modify_vars
    (p : Process σ)
    (f : Vars → Vars) :
    (p.modify f).vars = f p.vars := rfl

@[simp] theorem Process.modify_state
    (p : Process σ)
    (f : Vars → Vars) :
    (p.modify f).state = p.state := rfl

/- The callbacks change the state of the ports only. -/
theorem Process.call_vars
    {ports : List (Port σ)}
    {callback : Port σ → Option (Callback σ)}
    {p p' : Process σ}
    (h : p.call ports callback = .ret p') :
    p'.vars = p.vars := by
  unfold Process.call at h
  rw [Outcome.bind_eq_ret_iff] at h
  rcases h with ⟨st, _, h⟩
  rw [Outcome.pure_eq_ret_iff] at h
  exact h ▸ rfl

theorem Process.pprGroupInit_vars
    {ports : List (Port σ)}
    {p p' : Process σ}
    (h : p.pprGroupInit ports = .ret p') :
    p'.vars =
      { p.vars with specOrder := 0, taskStatus := .main } := by
  unfold Process.pprGroupInit at h
  rw [Outcome.bind_eq_ret_iff] at h
  rcases h with ⟨q, hCall, h⟩
  rw [Outcome.pure_eq_ret_iff] at h
  rw [← h, Process.modify_vars, Process.call_vars hCall]
  rfl

/- A task counts its place in the group when it starts. -/
theorem Process.pprTaskInit_vars
    {ports : List (Port σ)}
    {p p' : Process σ}
    (h : p.pprTaskInit ports = .ret p') :
    (p.vars.taskStatus = .main ∧ p'.vars = p.vars) ∨
      (p.vars.taskStatus = .spec ∧ p'.vars =
        { p.vars with
          specOrder := p.vars.specOrder + 1 }) := by
  unfold Process.pprTaskInit at h
  cases hStatus : p.vars.taskStatus with
  | main =>
      simp only [hStatus] at h
      by_cases hOrder : p.vars.specOrder = 0
      · rw [if_pos hOrder] at h
        exact .inl ⟨rfl, Process.call_vars h⟩
      · rw [if_neg hOrder] at h
        cases h
  | spec =>
      simp only [hStatus] at h
      exact .inr ⟨rfl, Process.call_vars h⟩
  | undy =>
      simp only [hStatus] at h
      cases h
  | seq =>
      simp only [hStatus] at h
      cases h

/-
  What `_BOP_ppr_begin` may do once `p` has noted the
  region.
-/
inductive SpawnMove
    (ports : List (Port σ))
    (around : Around)
    (p : Process σ) :
    Begun σ → Prop where
| serial
    {q : Process σ} :
    p.vars.bopMode = .serial → p.pprTaskInit ports = .ret q →
      SpawnMove ports around p { caller := q }
| full :
    p.vars.bopMode = .parallel →
      p.vars.specOrder ≥ (around.partialSize 0 : Int) - 1 →
      SpawnMove ports around p { caller := p }
| fallback :
    p.vars.bopMode = .parallel → p.vars.taskStatus = .main →
      SpawnMove ports around p
        { caller := p.modify (fun v =>
            { v with taskStatus := .seq
                     bopMode := .serial }) }
| shrinks
    {newSize : Int} :
    p.vars.bopMode = .parallel → around.forked = .failed →
      p.vars.taskStatus ≠ .main →
      SpawnMove ports around p
        { caller := p, newSize := some newSize }
| forks
    {senior child : Process σ} :
    p.vars.bopMode = .parallel → around.forked = .done →
      (p.vars.taskStatus = .main ∧
          p.pprTaskInit ports = .ret senior) ∨
        (p.vars.taskStatus ≠ .main ∧ senior = p) →
      (p.modify (fun v =>
        { v with taskStatus := .spec
                 pprPos := .gap })).pprTaskInit ports =
          .ret child →
      SpawnMove ports around p
        { caller := senior, child := some child }

theorem Process.pprSpawn_move
    {ports : List (Port σ)}
    {around : Around}
    {id : Int}
    {p : Process σ}
    {b : Begun σ}
    (h : p.pprSpawn ports around id = .ret b) :
    SpawnMove ports around (p.modify (fun v =>
      { v with pprStaticId := id })) b := by
  unfold Process.pprSpawn at h
  cases hMode : p.vars.bopMode with
  | serial =>
      simp only [modify_vars, hMode, if_true,
        Outcome.bind_eq_ret_iff,
        Outcome.pure_eq_ret_iff] at h
      rcases h with ⟨q, hInit, rfl⟩
      exact .serial hMode hInit
  | parallel =>
      simp only [modify_vars, hMode, reduceCtorEq,
        if_false] at h
      by_cases hFull : p.vars.specOrder ≥
          (around.partialSize 0 : Int) - 1
      · rw [if_pos hFull, Outcome.pure_eq_ret_iff] at h
        exact h ▸ .full hMode hFull
      · rw [if_neg hFull] at h
        cases hFork : around.forked with
        | failed =>
            simp only [hFork] at h
            by_cases hMain : p.vars.taskStatus = .main
            · rw [if_pos hMain, Outcome.pure_eq_ret_iff] at h
              exact h ▸ .fallback hMode hMain
            · rw [if_neg hMain, Outcome.pure_eq_ret_iff] at h
              exact h ▸ .shrinks hMode hFork hMain
        | done =>
            simp only [hFork, Outcome.bind_eq_ret_iff,
              Outcome.pure_eq_ret_iff] at h
            rcases h with ⟨senior, hSenior, child, hChild, rfl⟩
            refine .forks hMode hFork ?_ hChild
            by_cases hMain : p.vars.taskStatus = .main
            · rw [if_pos hMain] at hSenior
              exact .inl ⟨hMain, hSenior⟩
            · rw [if_neg hMain,
                Outcome.pure_eq_ret_iff] at hSenior
              exact .inr ⟨hMain, hSenior.symm⟩

/-
  The part of `_BOP_ppr_begin` that forks, in a task of a
  group in parallel mode: the caller only notes the region,
  and a child is one place further in the group, in a gap.
-/
theorem Process.pprSpawn_vars
    {ports : List (Port σ)}
    {around : Around}
    {id : Int}
    {p : Process σ}
    {b : Begun σ}
    (hMode : p.vars.bopMode = .parallel)
    (h : p.pprSpawn ports around id = .ret b) :
    (b.caller.vars = { p.vars with pprStaticId := id } ∨
      (p.vars.taskStatus = .main ∧ b.child = none ∧
        b.caller.vars =
          { p.vars with
            pprStaticId := id
            taskStatus := .seq
            bopMode := .serial })) ∧
    ∀ c, b.child = some c → c.vars =
      { p.vars with
        pprStaticId := id
        taskStatus := .spec
        pprPos := .gap
        specOrder := p.vars.specOrder + 1 } := by
  cases Process.pprSpawn_move h with
  | serial hSerial _ =>
      rw [modify_vars, hMode] at hSerial
      cases hSerial
  | full _ _ => exact ⟨.inl rfl, by simp⟩
  | fallback _ hMain =>
      exact ⟨.inr ⟨hMain, rfl, rfl⟩, by simp⟩
  | shrinks _ _ _ => exact ⟨.inl rfl, by simp⟩
  | forks _ _ hSenior hChild =>
      constructor
      · left
        rcases hSenior with ⟨hMain, hInit⟩ | ⟨_, rfl⟩
        · rcases Process.pprTaskInit_vars hInit with
            ⟨_, hVars⟩ | ⟨hSpec, _⟩
          · exact hVars
          · rw [hMain] at hSpec
            cases hSpec
        · rfl
      · intro c hc
        rw [← Option.some.inj hc]
        rcases Process.pprTaskInit_vars hChild with
          ⟨hMain, _⟩ | ⟨_, hVars⟩
        · rw [modify_vars] at hMain
          cases hMain
        · exact hVars

/- In serial mode the process is a task, and stays serial. -/
theorem Process.pprSpawn_serial
    {ports : List (Port σ)}
    {around : Around}
    {id : Int}
    {p : Process σ}
    {b : Begun σ}
    (hMode : p.vars.bopMode = .serial)
    (h : p.pprSpawn ports around id = .ret b) :
    b.child = none ∧
      ((p.vars.taskStatus = .main ∧
          b.caller.vars =
            { p.vars with pprStaticId := id }) ∨
        (p.vars.taskStatus = .spec ∧
          b.caller.vars =
            { p.vars with
              pprStaticId := id
              specOrder := p.vars.specOrder + 1 })) := by
  cases Process.pprSpawn_move h with
  | serial _ hInit =>
      exact ⟨rfl, Process.pprTaskInit_vars hInit⟩
  | full hParallel _ =>
      rw [modify_vars, hMode] at hParallel
      cases hParallel
  | fallback hParallel _ =>
      rw [modify_vars, hMode] at hParallel
      cases hParallel
  | shrinks hParallel _ _ =>
      rw [modify_vars, hMode] at hParallel
      cases hParallel
  | forks hParallel _ _ _ =>
      rw [modify_vars, hMode] at hParallel
      cases hParallel

/- The last task of a group is sequential afterwards. -/
theorem Process.commitIfLast_vars
    {ports : List (Port σ)}
    {psize : Nat}
    {p q : Process σ}
    (h : p.commitIfLast ports psize = .ret (some q)) :
    q.vars = { p.vars with taskStatus := .seq } := by
  unfold Process.commitIfLast at h
  by_cases hLast : p.vars.specOrder = (psize : Int) - 1
  · rw [if_pos hLast] at h
    unfold Process.taskGroupCommit at h
    split at h
    · simp at h
    · simp only [Outcome.bind_eq_ret_iff,
        Outcome.pure_eq_ret_iff, Option.some.injEq] at h
      rcases h with ⟨p1, h1, p2, h2, rfl⟩
      rw [modify_vars, Process.call_vars h2,
        Process.call_vars h1]
  · rw [if_neg hLast] at h
    simp at h

theorem Process.checkCorrectness_vars
    {ports : List (Port σ)}
    {p q : Process σ}
    {goesOn : Bool}
    (h : p.checkCorrectness ports = .ret (q, goesOn)) :
    q.vars = p.vars := by
  unfold Process.checkCorrectness at h
  simp only [Outcome.bind_eq_ret_iff] at h
  rcases h with ⟨⟨st, passed⟩, _, h⟩
  simp only at h
  split at h
  · cases h
  · rw [Outcome.pure_eq_ret_iff, Prod.mk.injEq] at h
    exact h.1 ▸ rfl

/-
  How a commit ends: in an exit, or in serial mode, or with
  the test for the last task.
-/
theorem Process.pprTaskCommit_cases
    {ports : List (Port σ)}
    {around : Around}
    {p : Process σ}
    {x : Option (Process σ)}
    (h : p.pprTaskCommit ports around = .ret x) :
    x = none ∨
      (p.vars.bopMode = .serial ∧
        ∃ q : Process σ, q.vars = p.vars ∧ x = some q) ∨
      ∃ q : Process σ, q.vars = p.vars ∧
        q.commitIfLast ports (around.partialSize 2) =
          .ret x := by
  unfold Process.pprTaskCommit at h
  split at h
  · rw [Outcome.pure_eq_ret_iff] at h
    exact .inl h.symm
  · rw [Outcome.bind_eq_ret_iff] at h
    rcases h with ⟨⟨p1, goesOn⟩, hCheck, h⟩
    have hVars := Process.checkCorrectness_vars hCheck
    simp only at h
    split at h
    · rw [Outcome.pure_eq_ret_iff] at h
      exact .inl h.symm
    · split at h
      · rw [Outcome.bind_eq_ret_iff] at h
        rcases h with ⟨p2, hCommit, h⟩
        have hVars2 := (Process.call_vars hCommit).trans hVars
        split at h
        · next hSerial =>
            rw [Outcome.pure_eq_ret_iff] at h
            rw [hVars2] at hSerial
            exact .inr (.inl ⟨hSerial, p2, hVars2, h.symm⟩)
        · exact .inr (.inr ⟨p2, hVars2, h⟩)
      · exact .inr (.inr ⟨p1, hVars, h⟩)

/- What a commit leaves of a task that does not exit. -/
theorem Process.pprTaskCommit_vars
    {ports : List (Port σ)}
    {around : Around}
    {p q : Process σ}
    (h : p.pprTaskCommit ports around = .ret (some q)) :
    q.vars = p.vars ∨
      q.vars = { p.vars with taskStatus := .seq } := by
  rcases Process.pprTaskCommit_cases h with
    hNone | ⟨_, q', hVars, hSome⟩ | ⟨q', hVars, hLast⟩
  · cases hNone
  · left
    rw [Option.some.inj hSome]
    exact hVars
  · right
    rw [Process.commitIfLast_vars hLast, hVars]

/- In parallel mode a commit by MAIN ends in its exit. -/
theorem Process.pprTaskCommit_main
    {ports : List (Port σ)}
    {around : Around}
    {p : Process σ}
    {x : Option (Process σ)}
    (hMain : p.vars.taskStatus = .main)
    (hMode : p.vars.bopMode = .parallel)
    (h : p.pprTaskCommit ports around = .ret x) :
    x = none := by
  rcases Process.pprTaskCommit_cases h with
    hNone | ⟨hSerial, _⟩ | ⟨q, hVars, hLast⟩
  · exact hNone
  · rw [hMode] at hSerial
    cases hSerial
  · unfold Process.commitIfLast
      Process.taskGroupCommit at hLast
    rw [hVars, hMain, hMode] at hLast
    simp only [ne_eq, reduceCtorEq, not_false_eq_true,
      and_self, if_true, ite_self,
      Outcome.pure_eq_ret_iff] at hLast
    exact hLast.symm

/- A begin that only counts: the understudy's, or nested. -/
theorem Process.pprBegin_counts
    {ports : List (Port σ)}
    {around : Around}
    {id : Int}
    {p : Process σ}
    {b : Begun σ}
    (hStatus : p.vars.taskStatus = .undy ∨
      p.vars.taskStatus = .main ∨
      (p.vars.taskStatus = .spec ∧ p.vars.pprPos ≠ .gap))
    (h : p.pprBegin ports around id = .ret b) :
    b = { caller := p.modify (fun v =>
      { v with pprPos := .ppr
               pprIndex := v.pprIndex + 1 }) } := by
  unfold Process.pprBegin at h
  rcases hStatus with hUndy | hMain | ⟨hSpec, hPos⟩
  · simp only [modify_vars, hUndy,
      Outcome.pure_eq_ret_iff] at h
    exact h.symm
  · simp only [modify_vars, hMain,
      Outcome.pure_eq_ret_iff] at h
    exact h.symm
  · simp only [modify_vars, hSpec] at h
    rw [if_pos hPos, Outcome.pure_eq_ret_iff] at h
    exact h.symm

/- A speculative task in a gap enters its region. -/
theorem Process.pprBegin_enters
    {ports : List (Port σ)}
    {around : Around}
    {id : Int}
    {p : Process σ}
    {b : Begun σ}
    (hSpec : p.vars.taskStatus = .spec)
    (hPos : p.vars.pprPos = .gap)
    (hMode : p.vars.bopMode = .parallel)
    (h : p.pprBegin ports around id = .ret b) :
    b.caller.vars =
        { p.vars with
          pprPos := .ppr
          pprIndex := p.vars.pprIndex + 1
          pprStaticId := id } ∧
      ∀ c, b.child = some c → c.vars =
        { p.vars with
          pprIndex := p.vars.pprIndex + 1
          pprStaticId := id
          specOrder := p.vars.specOrder + 1 } := by
  unfold Process.pprBegin at h
  simp only [modify_vars, hSpec, hPos, ne_eq,
    not_true_eq_false, if_false] at h
  rcases Process.pprSpawn_vars (by exact hMode) h with
    ⟨hCaller | ⟨hMain, _⟩, hChild⟩
  · refine ⟨hCaller, ?_⟩
    intro c hc
    rw [hChild c hc]
    simp [hSpec, hPos]
  · rw [modify_vars] at hMain
    simp [hSpec] at hMain

/-
  A begin in a sequential process starts a group: MAIN is
  inside its region, and a task that it forked is in a gap,
  one place further.
-/
theorem Process.pprBegin_starts
    {ports : List (Port σ)}
    {around : Around}
    {id : Int}
    {p : Process σ}
    {b : Begun σ}
    (hSeq : p.vars.taskStatus = .seq)
    (h : p.pprBegin ports around id = .ret b) :
    ∃ v : Vars,
      v = { p.vars with
            taskStatus := .main
            pprPos := .ppr
            specOrder := 0
            pprIndex := p.vars.pprIndex + 1
            pprStaticId := id } ∧
      (b.caller.vars = v ∨
        (b.child = none ∧ b.caller.vars =
          { v with taskStatus := .seq, bopMode := .serial })) ∧
      ∀ c, b.child = some c →
        v.bopMode = .parallel ∧ c.vars =
          { v with
            taskStatus := .spec
            pprPos := .gap
            specOrder := 1 } := by
  refine ⟨_, rfl, ?_⟩
  unfold Process.pprBegin at h
  simp only [modify_vars, hSeq, Outcome.bind_eq_ret_iff] at h
  rcases h with ⟨q, hInit, h⟩
  have hVars := Process.pprGroupInit_vars hInit
  rw [modify_vars] at hVars
  cases hMode : p.vars.bopMode with
  | serial =>
      have hSerial : q.vars.bopMode = .serial := by
        rw [hVars]
        exact hMode
      rcases Process.pprSpawn_serial hSerial h with
        ⟨hNone, ⟨_, hCaller⟩ | ⟨hSpec, _⟩⟩
      · refine ⟨.inl ?_, by simp [hNone]⟩
        rw [hCaller, hVars]
      · rw [hVars] at hSpec
        cases hSpec
  | parallel =>
      have hParallel : q.vars.bopMode = .parallel := by
        rw [hVars]
        exact hMode
      rcases Process.pprSpawn_vars hParallel h with
        ⟨hCaller, hChild⟩
      constructor
      · rcases hCaller with hCaller | ⟨_, hNone, hCaller⟩
        · left
          rw [hCaller, hVars]
        · right
          refine ⟨hNone, ?_⟩
          rw [hCaller, hVars]
      · intro c hc
        refine ⟨rfl, ?_⟩
        rw [hChild c hc, hVars]
        simp [hMode]

/- What `_BOP_ppr_end` may do. -/
inductive EndMove
    (ports : List (Port σ))
    (around : Around)
    (id : Int)
    (p : Process σ) :
    Ended σ → Prop where
| ignored :
    p.vars.pprPos = .gap ∨ p.vars.pprStaticId ≠ id ∨
        p.vars.taskStatus = .seq →
      EndMove ports around id p { caller := some p }
| serial
    {p1 : Process σ}
    {x : Option (Process σ)} :
    p.vars.taskStatus = .main → p.vars.bopMode = .serial →
      p.call ports Port.onMainComplete = .ret p1 →
      p1.pprTaskCommit ports around = .ret x →
      EndMove ports around id p { caller := x }
| fallback
    {p1 : Process σ} :
    p.vars.taskStatus = .main →
      p.vars.bopMode = .parallel → around.forked = .failed →
      p.call ports Port.onMainComplete = .ret p1 →
      EndMove ports around id p
        { caller := some (p1.modify (fun v =>
            { v with taskStatus := .seq
                     bopMode := .serial })) }
| spawns
    {p1 undy : Process σ}
    {x : Option (Process σ)} :
    p.vars.taskStatus = .main →
      p.vars.bopMode = .parallel → around.forked = .done →
      p.call ports Port.onMainComplete = .ret p1 →
      p1.becomeUndy ports = .ret undy →
      p1.pprTaskCommit ports around = .ret x →
      EndMove ports around id p
        { caller := x, understudy := some undy }
| commits
    {x : Option (Process σ)} :
    p.vars.taskStatus = .spec →
      p.pprTaskCommit ports around = .ret x →
      EndMove ports around id p { caller := x }
| counts
    {p1 : Process σ} :
    p.vars.taskStatus = .undy →
      p.postPprUndy ports around = .ret p1 →
      EndMove ports around id p
        { caller := some (p1.modify (fun v =>
            { v with pprPos := .gap })) }

theorem Process.pprEnd_move
    {ports : List (Port σ)}
    {around : Around}
    {id : Int}
    {p : Process σ}
    {e : Ended σ}
    (h : p.pprEnd ports around id = .ret e) :
    EndMove ports around id p e := by
  unfold Process.pprEnd at h
  split at h
  · next hIgnored =>
      rw [Outcome.pure_eq_ret_iff] at h
      exact h ▸ .ignored (hIgnored.imp_right .inl)
  · cases hStatus : p.vars.taskStatus with
    | seq =>
        simp only [hStatus, Outcome.pure_eq_ret_iff] at h
        exact h ▸ .ignored (.inr (.inr hStatus))
    | spec =>
        simp only [hStatus, Outcome.bind_eq_ret_iff,
          Outcome.pure_eq_ret_iff] at h
        rcases h with ⟨x, hCommit, rfl⟩
        exact .commits hStatus hCommit
    | undy =>
        simp only [hStatus, Outcome.bind_eq_ret_iff,
          Outcome.pure_eq_ret_iff] at h
        rcases h with ⟨p1, hPost, rfl⟩
        exact .counts hStatus hPost
    | main =>
        simp only [hStatus, Outcome.bind_eq_ret_iff] at h
        rcases h with ⟨p1, hDone, h⟩
        rw [Process.call_vars hDone] at h
        cases hMode : p.vars.bopMode with
        | serial =>
            simp only [hMode, if_true, Outcome.bind_eq_ret_iff,
              Outcome.pure_eq_ret_iff] at h
            rcases h with ⟨x, hCommit, rfl⟩
            exact .serial hStatus hMode hDone hCommit
        | parallel =>
            simp only [hMode, reduceCtorEq, if_false] at h
            cases hFork : around.forked with
            | failed =>
                simp only [hFork,
                  Outcome.pure_eq_ret_iff] at h
                exact h ▸ .fallback hStatus hMode hFork hDone
            | done =>
                simp only [hFork, Outcome.bind_eq_ret_iff,
                  Outcome.pure_eq_ret_iff] at h
                rcases h with ⟨undy, hUndy, x, hCommit, rfl⟩
                exact .spawns hStatus hMode hFork hDone hUndy
                  hCommit

/- The child of the `fork` in `spawn_undy`. -/
theorem Process.becomeUndy_vars
    {ports : List (Port σ)}
    {p u : Process σ}
    (h : p.becomeUndy ports = .ret u) :
    u.vars = { p.vars with
      taskStatus := .undy
      pprPos := .gap
      specOrder := -1
      undyPprCount := 0 } := by
  unfold Process.becomeUndy at h
  rw [Process.call_vars h, modify_vars]

/- An understudy goes on, or is sequential in a gap. -/
theorem Process.postPprUndy_vars
    {ports : List (Port σ)}
    {around : Around}
    {p p' : Process σ}
    (h : p.postPprUndy ports around = .ret p') :
    ∃ v, v = { p.vars with
        undyPprCount := p.vars.undyPprCount + 1 } ∧
      (p'.vars = v ∨ p'.vars =
        { v with taskStatus := .seq, pprPos := .gap }) := by
  refine ⟨_, rfl, ?_⟩
  unfold Process.postPprUndy at h
  simp only at h
  split at h
  · rw [Outcome.pure_eq_ret_iff] at h
    exact .inl (h ▸ rfl)
  · simp only [Outcome.bind_eq_ret_iff,
      Outcome.pure_eq_ret_iff] at h
    rcases h with ⟨p1, hFini, rfl⟩
    right
    rw [modify_vars, Process.call_vars hFini, modify_vars]

/- The process left its group, in the mode it was in. -/
def LeftGroup (v v' : Vars) : Prop :=
  (v'.taskStatus = .seq ∨ v'.taskStatus = .undy) ∧
    v'.specOrder = v.specOrder ∧
    (v.bopMode = .serial → v'.bopMode = .serial)

theorem leftGroup_of_commit
    {ports : List (Port σ)}
    {around : Around}
    {p p1 q : Process σ}
    (hVars : p1.vars = p.vars)
    (h : p1.pprTaskCommit ports around = .ret (some q)) :
    q.vars = p.vars ∨ LeftGroup p.vars q.vars := by
  rcases Process.pprTaskCommit_vars h with hSame | hSeq
  · exact .inl (hSame.trans hVars)
  · right
    rw [hSeq, hVars]
    exact ⟨.inl rfl, rfl, fun hMode => hMode⟩

/-
  What `_BOP_ppr_end` leaves: the caller as it was, or one
  that is no task of the group any more.
-/
theorem Process.pprEnd_vars
    {ports : List (Port σ)}
    {around : Around}
    {id : Int}
    {p q : Process σ}
    {e : Ended σ}
    (h : p.pprEnd ports around id = .ret e)
    (hCaller : e.caller = some q) :
    q.vars = p.vars ∨ LeftGroup p.vars q.vars := by
  cases Process.pprEnd_move h with
  | ignored _ =>
      exact .inl (Option.some.inj hCaller ▸ rfl)
  | serial _ _ hDone hCommit =>
      have hCaller : _ = some q := hCaller
      subst hCaller
      exact leftGroup_of_commit (Process.call_vars hDone)
        hCommit
  | fallback _ _ _ hDone =>
      rw [← Option.some.inj hCaller]
      right
      rw [modify_vars, Process.call_vars hDone]
      exact ⟨.inl rfl, rfl, fun _ => rfl⟩
  | spawns _ _ _ hDone _ hCommit =>
      have hCaller : _ = some q := hCaller
      subst hCaller
      exact leftGroup_of_commit (Process.call_vars hDone)
        hCommit
  | commits _ hCommit =>
      have hCaller : _ = some q := hCaller
      subst hCaller
      exact leftGroup_of_commit rfl hCommit
  | counts hUndy hPost =>
      rw [← Option.some.inj hCaller]
      right
      rw [modify_vars]
      rcases Process.postPprUndy_vars hPost with
        ⟨v, rfl, hGoesOn | hWins⟩
      · rw [hGoesOn]
        exact ⟨.inr hUndy, rfl, fun hMode => hMode⟩
      · rw [hWins]
        exact ⟨.inl rfl, rfl, fun hMode => hMode⟩

/- The understudy MAIN forks inherits the region's number. -/
theorem Process.pprEnd_understudy
    {ports : List (Port σ)}
    {around : Around}
    {id : Int}
    {p u : Process σ}
    {e : Ended σ}
    (h : p.pprEnd ports around id = .ret e)
    (hUndy : e.understudy = some u) :
    u.vars = { p.vars with
      taskStatus := .undy
      pprPos := .gap
      specOrder := -1
      undyPprCount := 0 } := by
  cases Process.pprEnd_move h with
  | ignored _ => cases hUndy
  | serial _ _ _ _ => cases hUndy
  | fallback _ _ _ _ => cases hUndy
  | spawns _ _ _ hDone hForked _ =>
      rw [← Option.some.inj hUndy,
        Process.becomeUndy_vars hForked,
        Process.call_vars hDone]
  | commits _ _ => cases hUndy
  | counts _ _ => cases hUndy

------------------------------------------------------------
-- A Group of Two
------------------------------------------------------------

/- A sequential process with a group size of two. -/
def freshVars : Vars where
  taskStatus := .seq
  pprPos := .gap
  bopMode := .parallel
  specOrder := 0
  pprIndex := 0
  pprStaticId := 0
  undyPprCount := 0
  groupSize := 2

/- Forks succeed, and the group keeps its size. -/
def aroundTwo : Around where
  forked := .done
  partialSize := fun _ => 2

end Cbop
