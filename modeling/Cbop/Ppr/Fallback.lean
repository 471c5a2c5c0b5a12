import Cbop.Ppr.Understudy

/-
  The fallback to serial mode after a failed `fork`.

  When MAIN cannot fork, in `_BOP_ppr_begin` or in
  `spawn_undy`, it goes on as a sequential process in serial
  mode and abandons its group. Nothing undoes what the ports
  did at the start of that group: the buffer that
  `io_group_init` made for the understudy is still there,
  and the next `io_group_init` asserts that it is not.

  Main declarations:
    * `serialCalls`, `FellBack`
    * `fallback_safe_iff`
-/

namespace Cbop

variable {σ : Type}

------------------------------------------------------------
-- Calls of One Process
------------------------------------------------------------

/-
  A call of the process, or anything else that happens: its
  recorded accesses and its output, and what other processes
  do to the buffers and the other ports.
-/
inductive SerialCall (σ : Type) where
| pprBegin (id : Int) (around : Around)
| pprEnd (id : Int) (around : Around)
| elsewhere
    (buffers : Option (List OutputBuffer))
    (stdout : Bytes)
    (rest : σ)

def SerialCall.isBegin : SerialCall σ → Bool
| .pprBegin _ _ => true
| _ => false

/- A process that exits aborts the sequence. -/
def serialCall
    (bodies : PortBodies σ)
    (p : Process (IoState × σ)) :
    SerialCall σ → Outcome (Process (IoState × σ))
| .pprBegin id around => do
    let b ← p.pprBegin (registeredPorts bodies) around id
    pure b.caller
| .pprEnd id around => do
    let e ← p.pprEnd (registeredPorts bodies) around id
    match e.caller with
    | some q => pure q
    | none => .abort
| .elsewhere buffers stdout rest =>
    pure { p with
      state := ({ p.state.1 with
        outputBuffers := buffers, stdout := stdout }, rest) }

def serialCalls
    (bodies : PortBodies σ)
    (p : Process (IoState × σ))
    (calls : List (SerialCall σ)) :
    Outcome (Process (IoState × σ)) :=
  calls.foldlM (serialCall bodies) p

/-
  A process that fell back to serial mode: MAIN at the start
  of its region, or at its end after any calls.
-/
inductive FellBack
    (bodies : PortBodies σ) :
    Process (IoState × σ) → Prop where
| inBegin
    {p : Process (IoState × σ)}
    {around : Around}
    {id : Int}
    {b : Begun (IoState × σ)} :
    p.vars.taskStatus = .seq →
      p.vars.bopMode = .parallel →
      2 ≤ around.partialSize 0 → around.forked = .failed →
      p.pprBegin (registeredPorts bodies) around id =
        .ret b →
      FellBack bodies b.caller
| inEnd
    {p q r : Process (IoState × σ)}
    {around around' : Around}
    {id id' : Int}
    {b : Begun (IoState × σ)}
    {e : Ended (IoState × σ)}
    {calls : List (SerialCall σ)} :
    p.vars.taskStatus = .seq →
      p.pprBegin (registeredPorts bodies) around id =
        .ret b →
      serialCalls bodies b.caller calls = .ret q →
      q.vars.taskStatus = .main →
      q.vars.bopMode = .parallel →
      q.vars.pprPos = .ppr → q.vars.pprStaticId = id' →
      around'.forked = .failed →
      q.pprEnd (registeredPorts bodies) around' id' =
        .ret e →
      e.caller = some r →
      FellBack bodies r

/-
  The initialisers that run before the one of the I/O port
  return.
-/
def PortBodies.Starts (bodies : PortBodies σ) : Prop :=
  (∀ v st, ∃ st', bodies.bopMergeInit v st = .ret st') ∧
    ∀ v st, ∃ st', bodies.postwaitInit v st = .ret st'

/- The understudy's buffer is there. -/
def HasUndyBuffer (p : Process (IoState × σ)) : Prop :=
  p.state.1.undyBuffer.data ≠ none

/- After every end of a region the process is sequential. -/
def EndsSequential
    (bodies : PortBodies σ)
    (p : Process (IoState × σ))
    (calls : List (SerialCall σ)) :
    Prop :=
  ∀ before id around after,
    calls = before ++ .pprEnd id around :: after →
    ∀ q, serialCalls bodies p
        (before ++ [.pprEnd id around]) = .ret q →
      q.vars.taskStatus = .seq

------------------------------------------------------------
-- The Buffer of the Abandoned Group
------------------------------------------------------------

/- A callback of another port leaves the buffers alone. -/
theorem onRest_io
    {f : Callback σ}
    {v : Vars}
    {st st' : IoState × σ}
    (h : onRest f v st = .ret st') :
    st'.1 = st.1 := by
  unfold onRest at h
  rw [Outcome.bind_eq_ret_iff] at h
  rcases h with ⟨rest, _, h⟩
  rw [Outcome.pure_eq_ret_iff] at h
  exact h ▸ rfl

/- A callback that the I/O port does not have. -/
def LeavesIo
    (bodies : PortBodies σ)
    (callback : Port (IoState × σ) →
      Option (Callback (IoState × σ))) :
    Prop :=
  ∀ v st st',
    callPorts (registeredPorts bodies) callback v st =
      .ret st' → st'.1 = st.1

theorem leavesIo_pprTaskInit
    (bodies : PortBodies σ) :
    LeavesIo bodies Port.pprTaskInit := by
  intro v st st' h
  simp only [callPorts, registeredPorts, List.foldlM_cons,
    List.foldlM_nil, portCall, Outcome.bind_eq_ret_iff,
    Outcome.pure_eq_ret_iff] at h
  rcases h with ⟨s1, h1, s2, h2, s3, h3, s4, rfl, s5, rfl, rfl⟩
  rw [onRest_io h3, onRest_io h2, onRest_io h1]

theorem leavesIo_onMainComplete
    (bodies : PortBodies σ) :
    LeavesIo bodies Port.onMainComplete := by
  intro v st st' h
  simp only [callPorts, registeredPorts, List.foldlM_cons,
    List.foldlM_nil, portCall, Outcome.bind_eq_ret_iff,
    Outcome.pure_eq_ret_iff] at h
  rcases h with
    ⟨s1, rfl, s2, rfl, s3, rfl, s4, rfl, s5, h5, rfl⟩
  exact onRest_io h5

theorem call_io
    {bodies : PortBodies σ}
    {callback : Port (IoState × σ) →
      Option (Callback (IoState × σ))}
    {p q : Process (IoState × σ)}
    (hLeaves : LeavesIo bodies callback)
    (h : p.call (registeredPorts bodies) callback = .ret q) :
    q.state.1 = p.state.1 := by
  unfold Process.call at h
  rw [Outcome.bind_eq_ret_iff] at h
  rcases h with ⟨st, hCall, h⟩
  rw [Outcome.pure_eq_ret_iff] at h
  rw [← h]
  exact hLeaves _ _ _ hCall

/- A task starts without touching the buffers. -/
theorem pprTaskInit_io
    {bodies : PortBodies σ}
    {p q : Process (IoState × σ)}
    (h : p.pprTaskInit (registeredPorts bodies) = .ret q) :
    q.state.1 = p.state.1 := by
  have hLeaves := leavesIo_pprTaskInit bodies
  unfold Process.pprTaskInit at h
  split at h
  · split at h
    · exact call_io hLeaves h
    · cases h
  · have hSame := call_io hLeaves h
    exact hSame
  · cases h
  · cases h

theorem pprSpawn_io
    {bodies : PortBodies σ}
    {around : Around}
    {id : Int}
    {p : Process (IoState × σ)}
    {b : Begun (IoState × σ)}
    (h : p.pprSpawn (registeredPorts bodies) around id =
      .ret b) :
    b.caller.state.1 = p.state.1 := by
  cases Process.pprSpawn_move h with
  | serial _ hInit =>
      have hSame := pprTaskInit_io hInit
      exact hSame
  | full _ _ => rfl
  | fallback _ _ => rfl
  | shrinks _ _ _ => rfl
  | forks _ _ hSenior _ =>
      rcases hSenior with ⟨_, hInit⟩ | ⟨_, rfl⟩
      · have hSame := pprTaskInit_io hInit
        exact hSame
      · rfl

/- The I/O port makes the buffer only if there is none. -/
theorem ioGroupInit_undyBuffer
    {v : Vars}
    {io io' : IoState}
    (h : ioGroupInit v io = .ret io') :
    io.undyBuffer.data = none ∧
      io'.undyBuffer.data ≠ none := by
  unfold ioGroupInit at h
  simp only at h
  split at h
  · split at h
    · next hNone =>
        rw [Outcome.pure_eq_ret_iff] at h
        rw [← h]
        exact ⟨hNone, by simp [initBuffer]⟩
    · cases h
  · cases h

/- So a group starts only where no group was abandoned. -/
theorem pprGroupInit_undyBuffer
    {bodies : PortBodies σ}
    {p q : Process (IoState × σ)}
    (h : p.pprGroupInit (registeredPorts bodies) = .ret q) :
    p.state.1.undyBuffer.data = none ∧ HasUndyBuffer q := by
  unfold Process.pprGroupInit Process.call at h
  simp only [callPorts, registeredPorts, List.foldlM_cons,
    List.foldlM_nil, portCall, Outcome.bind_eq_ret_iff,
    Outcome.pure_eq_ret_iff] at h
  rcases h with ⟨q1, ⟨st, ⟨s1, h1, s2, h2, s3, rfl, s4, hIo,
    s5, h5, rfl⟩, rfl⟩, rfl⟩
  unfold onIo at hIo
  simp only [bopIoPort, Option.map_some,
    Outcome.bind_eq_ret_iff, Outcome.pure_eq_ret_iff] at hIo
  rcases hIo with ⟨io, hGroup, rfl⟩
  rcases ioGroupInit_undyBuffer hGroup with ⟨hNone, hSome⟩
  rw [onRest_io h2, onRest_io h1] at hNone
  unfold HasUndyBuffer
  rw [Process.modify_state, onRest_io h5]
  exact ⟨hNone, hSome⟩

/- A begin that starts a group makes the buffer. -/
theorem pprBegin_undyBuffer
    {bodies : PortBodies σ}
    {around : Around}
    {id : Int}
    {p : Process (IoState × σ)}
    {b : Begun (IoState × σ)}
    (hSeq : p.vars.taskStatus = .seq)
    (h : p.pprBegin (registeredPorts bodies) around id =
      .ret b) :
    p.state.1.undyBuffer.data = none ∧
      HasUndyBuffer b.caller := by
  unfold Process.pprBegin at h
  simp only [Process.modify_vars, hSeq,
    Outcome.bind_eq_ret_iff] at h
  rcases h with ⟨q, hInit, hSpawn⟩
  rcases pprGroupInit_undyBuffer hInit with ⟨hNone, hSome⟩
  unfold HasUndyBuffer
  rw [pprSpawn_io hSpawn]
  exact ⟨hNone, hSome⟩

/- Where the ports before it start, the I/O port fails. -/
theorem pprBegin_faults
    {bodies : PortBodies σ}
    {around : Around}
    {id : Int}
    {p : Process (IoState × σ)}
    (hSeq : p.vars.taskStatus = .seq)
    (hBuffer : HasUndyBuffer p)
    (hStarts : bodies.Starts) :
    p.pprBegin (registeredPorts bodies) around id =
      .fault := by
  rcases hStarts with ⟨hMerge, hPostwait⟩
  have hInit : ∀ v : Vars,
      callPorts (registeredPorts bodies) Port.pprGroupInit v
        p.state = .fault := by
    intro v
    rcases hMerge v p.state.2 with ⟨st1, h1⟩
    rcases hPostwait v st1 with ⟨st2, h2⟩
    have hIo : ioGroupInit v p.state.1 = .fault := by
      unfold ioGroupInit
      simp only
      split
      · exact if_neg hBuffer
      · rfl
    simp only [callPorts, registeredPorts, List.foldlM_cons,
      portCall, onRest, onIo, bopIoPort, Option.map_some,
      h1, h2, hIo, pure, Outcome.ret_bind]
    rfl
  unfold Process.pprBegin
  simp only [Process.modify_vars, hSeq]
  unfold Process.pprGroupInit Process.call
  simp only [Process.modify_state, hInit]
  rfl

------------------------------------------------------------
-- Until the Fallback
------------------------------------------------------------

/- A process stays in serial mode. -/
theorem pprBegin_serial
    {ports : List (Port σ)}
    {around : Around}
    {id : Int}
    {p : Process σ}
    {b : Begun σ}
    (hMode : p.vars.bopMode = .serial)
    (h : p.pprBegin ports around id = .ret b) :
    b.caller.vars.bopMode = .serial := by
  have hSpawn : ∀ {q : Process σ},
      q.vars.bopMode = .serial →
      q.pprSpawn ports around id = .ret b →
      b.caller.vars.bopMode = .serial := by
    intro q hq hRun
    rcases (Process.pprSpawn_serial hq hRun).2 with
      ⟨_, hVars⟩ | ⟨_, hVars⟩
    · rw [hVars]
      exact hq
    · rw [hVars]
      exact hq
  unfold Process.pprBegin at h
  cases hStatus : p.vars.taskStatus with
  | undy =>
      simp only [Process.modify_vars, hStatus,
        Outcome.pure_eq_ret_iff] at h
      exact h ▸ hMode
  | main =>
      simp only [Process.modify_vars, hStatus,
        Outcome.pure_eq_ret_iff] at h
      exact h ▸ hMode
  | seq =>
      simp only [Process.modify_vars, hStatus,
        Outcome.bind_eq_ret_iff] at h
      rcases h with ⟨q, hInit, hRun⟩
      refine hSpawn ?_ hRun
      rw [Process.pprGroupInit_vars hInit]
      exact hMode
  | spec =>
      simp only [Process.modify_vars, hStatus] at h
      split at h
      · rw [Outcome.pure_eq_ret_iff] at h
        exact h ▸ hMode
      · exact hSpawn (by exact hMode) h

theorem pprEnd_serial
    {ports : List (Port σ)}
    {around : Around}
    {id : Int}
    {p q : Process σ}
    {e : Ended σ}
    (hMode : p.vars.bopMode = .serial)
    (h : p.pprEnd ports around id = .ret e)
    (hCaller : e.caller = some q) :
    q.vars.bopMode = .serial := by
  rcases Process.pprEnd_vars h hCaller with
    hSame | ⟨_, _, hStays⟩
  · rw [hSame]
    exact hMode
  · exact hStays hMode

/-
  MAIN of a group in parallel mode either exits at the end
  of its region, when the understudy is there, or the end is
  ignored, or MAIN falls back.
-/
theorem pprEnd_main
    {bodies : PortBodies σ}
    {around : Around}
    {id : Int}
    {p q : Process (IoState × σ)}
    {e : Ended (IoState × σ)}
    (hMain : p.vars.taskStatus = .main)
    (hMode : p.vars.bopMode = .parallel)
    (h : p.pprEnd (registeredPorts bodies) around id =
      .ret e)
    (hCaller : e.caller = some q) :
    q = p ∨
      (q.vars.taskStatus = .seq ∧
        q.vars.bopMode = .serial ∧
        q.state.1 = p.state.1) := by
  cases Process.pprEnd_move h with
  | ignored _ => exact .inl (Option.some.inj hCaller).symm
  | fallback _ _ _ hDone =>
      have hIo :=
        call_io (leavesIo_onMainComplete bodies) hDone
      have hEq := Option.some.inj hCaller
      subst hEq
      exact .inr ⟨rfl, rfl, hIo⟩
  | spawns _ _ _ hDone _ hCommit =>
      have hVars := Process.call_vars hDone
      have hNone := Process.pprTaskCommit_main
        (by rw [hVars]; exact hMain)
        (by rw [hVars]; exact hMode) hCommit
      cases hNone.symm.trans hCaller
  | serial _ hSerial _ _ =>
      rw [hMode] at hSerial
      cases hSerial
  | commits hSpec _ =>
      rw [hMain] at hSpec
      cases hSpec
  | counts hUndy _ =>
      rw [hMain] at hUndy
      cases hUndy

/-
  From the start of a group until the process falls back it
  is MAIN of the group, and has the buffer.
-/
def InGroup (p : Process (IoState × σ)) : Prop :=
  p.vars.bopMode = .serial ∨
    (p.vars.bopMode = .parallel ∧
      p.vars.taskStatus = .main ∧ HasUndyBuffer p)

theorem inGroup_of_start
    {bodies : PortBodies σ}
    {around : Around}
    {id : Int}
    {p : Process (IoState × σ)}
    {b : Begun (IoState × σ)}
    (hSeq : p.vars.taskStatus = .seq)
    (h : p.pprBegin (registeredPorts bodies) around id =
      .ret b) :
    InGroup b.caller := by
  have hBuffer := (pprBegin_undyBuffer hSeq h).2
  rcases Process.pprBegin_starts hSeq h with
    ⟨v, rfl, hCaller, _⟩
  rcases hCaller with hMain | ⟨_, hSerial⟩
  · cases hMode : p.vars.bopMode with
    | serial =>
        left
        rw [hMain]
        exact hMode
    | parallel =>
        right
        refine ⟨?_, ?_, hBuffer⟩
        · rw [hMain]
          exact hMode
        · rw [hMain]
  · left
    rw [hSerial]

theorem inGroup_serialCall
    {bodies : PortBodies σ}
    {p q : Process (IoState × σ)}
    {call : SerialCall σ}
    (hGroup : InGroup p)
    (h : serialCall bodies p call = .ret q) :
    InGroup q := by
  cases call with
  | elsewhere buffers stdout rest =>
      unfold serialCall at h
      rw [Outcome.pure_eq_ret_iff] at h
      exact h ▸ hGroup
  | pprBegin id around =>
      simp only [serialCall, Outcome.bind_eq_ret_iff,
        Outcome.pure_eq_ret_iff] at h
      rcases h with ⟨b, hBegin, rfl⟩
      rcases hGroup with hSerial | ⟨hMode, hMain, hBuffer⟩
      · exact .inl (pprBegin_serial hSerial hBegin)
      · -- nested, ignored
        have hNested := Process.pprBegin_counts
          (.inr (.inl hMain)) hBegin
        subst hNested
        exact .inr ⟨hMode, hMain, hBuffer⟩
  | pprEnd id around =>
      simp only [serialCall, Outcome.bind_eq_ret_iff] at h
      rcases h with ⟨e, hEnd, h⟩
      cases hCaller : e.caller with
      | none =>
          simp [hCaller] at h
      | some q' =>
          simp only [hCaller, Outcome.pure_eq_ret_iff] at h
          subst h
          rcases hGroup with
            hSerial | ⟨hMode, hMain, hBuffer⟩
          · exact .inl (pprEnd_serial hSerial hEnd hCaller)
          · rcases pprEnd_main hMain hMode hEnd hCaller with
              rfl | ⟨_, hSerial, _⟩
            · exact .inr ⟨hMode, hMain, hBuffer⟩
            · exact .inl hSerial

theorem inGroup_serialCalls
    {bodies : PortBodies σ}
    {p q : Process (IoState × σ)}
    {calls : List (SerialCall σ)}
    (hGroup : InGroup p)
    (h : serialCalls bodies p calls = .ret q) :
    InGroup q := by
  induction calls generalizing p with
  | nil =>
      unfold serialCalls at h
      rw [List.foldlM_nil, Outcome.pure_eq_ret_iff] at h
      exact h ▸ hGroup
  | cons call rest ih =>
      unfold serialCalls at h
      rw [List.foldlM_cons, Outcome.bind_eq_ret_iff] at h
      rcases h with ⟨p1, hCall, hRest⟩
      exact ih (inGroup_serialCall hGroup hCall) hRest

/- What the fallback leaves behind. -/
theorem FellBack.leaves
    {bodies : PortBodies σ}
    {p : Process (IoState × σ)}
    (hFell : FellBack bodies p) :
    p.vars.taskStatus = .seq ∧ HasUndyBuffer p := by
  cases hFell with
  | @inBegin p around id b hSeq hMode hSize hFork hBegin =>
      refine ⟨?_, (pprBegin_undyBuffer hSeq hBegin).2⟩
      unfold Process.pprBegin at hBegin
      simp only [Process.modify_vars, hSeq,
        Outcome.bind_eq_ret_iff] at hBegin
      rcases hBegin with ⟨q, hInit, hSpawn⟩
      have hVars := Process.pprGroupInit_vars hInit
      have hBelow : ¬((0 : Int) ≥
          (around.partialSize 0 : Int) - 1) := by omega
      unfold Process.pprSpawn at hSpawn
      simp only [Process.modify_vars, hVars, hMode, hBelow,
        hFork, reduceCtorEq, if_false, if_true,
        Outcome.pure_eq_ret_iff] at hSpawn
      rw [← hSpawn]
      rfl
  | @inEnd p q r around around' id id' b e calls hSeq
      hBegin hCalls hMain hMode hPos hId hFork hEnd
      hCaller =>
      have hGroup := inGroup_serialCalls
        (inGroup_of_start hSeq hBegin) hCalls
      rcases hGroup with hSerial | ⟨_, _, hBuffer⟩
      · rw [hMode] at hSerial
        cases hSerial
      · cases Process.pprEnd_move hEnd with
        | fallback _ _ _ hDone =>
            have hEq := Option.some.inj hCaller
            subst hEq
            refine ⟨rfl, ?_⟩
            unfold HasUndyBuffer
            rw [Process.modify_state,
              call_io (leavesIo_onMainComplete bodies) hDone]
            exact hBuffer
        | ignored hIgnored =>
            simp [hPos, hId, hMain] at hIgnored
        | serial _ hSerial _ _ => simp [hMode] at hSerial
        | spawns _ _ hDone _ _ _ => simp [hFork] at hDone
        | commits hSpec _ => simp [hMain] at hSpec
        | counts hUndy _ => simp [hMain] at hUndy

------------------------------------------------------------
-- After the Fallback
------------------------------------------------------------

/- A sequential process ignores ends, and keeps the buffer. -/
theorem serialCall_sequential
    (bodies : PortBodies σ)
    {p : Process (IoState × σ)}
    {call : SerialCall σ}
    (hSeq : p.vars.taskStatus = .seq)
    (hBuffer : HasUndyBuffer p)
    (hCall : call.isBegin = false) :
    ∃ q, serialCall bodies p call = .ret q ∧
      q.vars.taskStatus = .seq ∧ HasUndyBuffer q := by
  cases call with
  | pprBegin id around => cases hCall
  | elsewhere buffers stdout rest =>
      exact ⟨_, rfl, hSeq, hBuffer⟩
  | pprEnd id around =>
      have hEnd : p.pprEnd (registeredPorts bodies) around
          id = .ret { caller := some p } := by
        unfold Process.pprEnd
        rw [hSeq]
        split <;> rfl
      refine ⟨p, ?_, hSeq, hBuffer⟩
      simp only [serialCall, hEnd, Outcome.ret_bind]
      rfl

theorem serialCalls_sequential
    (bodies : PortBodies σ)
    {p : Process (IoState × σ)}
    {calls : List (SerialCall σ)}
    (hSeq : p.vars.taskStatus = .seq)
    (hBuffer : HasUndyBuffer p)
    (hCalls : ∀ c ∈ calls, c.isBegin = false) :
    ∃ q, serialCalls bodies p calls = .ret q ∧
      q.vars.taskStatus = .seq := by
  induction calls generalizing p with
  | nil => exact ⟨p, rfl, hSeq⟩
  | cons call rest ih =>
      rcases serialCall_sequential bodies hSeq hBuffer
        (hCalls call (by simp)) with
        ⟨p1, hCall, hSeq1, hBuffer1⟩
      rcases ih hSeq1 hBuffer1
        (fun c hc => hCalls c (by simp [hc])) with
        ⟨q, hRest, hEnd⟩
      refine ⟨q, ?_, hEnd⟩
      unfold serialCalls
      rw [List.foldlM_cons, hCall]
      exact hRest

/- The first begin does not return. -/
theorem serialCalls_begin
    {bodies : PortBodies σ}
    {p : Process (IoState × σ)}
    {calls : List (SerialCall σ)}
    (hSeq : p.vars.taskStatus = .seq)
    (hBuffer : HasUndyBuffer p)
    (hBegin : ∃ c ∈ calls, c.isBegin = true) :
    (∀ q, serialCalls bodies p calls ≠ .ret q) ∧
      (bodies.Starts →
        serialCalls bodies p calls = .fault) := by
  induction calls generalizing p with
  | nil => simp at hBegin
  | cons call rest ih =>
      have hRun : serialCalls bodies p (call :: rest) =
          (serialCall bodies p call >>= fun q =>
            serialCalls bodies q rest) :=
        List.foldlM_cons
      cases hCall : call.isBegin with
      | false =>
          rcases serialCall_sequential bodies hSeq hBuffer
            hCall with ⟨p1, hStep, hSeq1, hBuffer1⟩
          rw [hRun, hStep]
          refine ih hSeq1 hBuffer1 ?_
          rcases hBegin with ⟨c, hMem, hc⟩
          rcases List.mem_cons.mp hMem with rfl | hMem
          · rw [hCall] at hc
            cases hc
          · exact ⟨c, hMem, hc⟩
      | true =>
          cases call with
          | pprEnd id around => cases hCall
          | elsewhere buffers stdout rest => cases hCall
          | pprBegin id around =>
              constructor
              · intro q h
                rw [hRun] at h
                simp only [serialCall,
                  Outcome.bind_eq_ret_iff,
                  Outcome.pure_eq_ret_iff] at h
                rcases h with ⟨_, ⟨b, hStart, _⟩, _⟩
                exact hBuffer
                  (pprBegin_undyBuffer hSeq hStart).1
              · intro hStarts
                rw [hRun]
                simp only [serialCall,
                  pprBegin_faults hSeq hBuffer hStarts]
                rfl

/-
  After the fallback the calls of the process return and
  leave it sequential at the end of each region exactly if
  it begins no region. The begin of a region fails in
  `io_group_init`.
-/
theorem fallback_safe_iff
    {bodies : PortBodies σ}
    {p : Process (IoState × σ)}
    (hFell : FellBack bodies p)
    (calls : List (SerialCall σ)) :
    ((∃ q, serialCalls bodies p calls = .ret q) ∧
        EndsSequential bodies p calls ↔
      ∀ c ∈ calls, c.isBegin = false) ∧
    (bodies.Starts →
      (serialCalls bodies p calls = .fault ↔
        ∃ c ∈ calls, c.isBegin = true)) := by
  rcases hFell.leaves with ⟨hSeq, hBuffer⟩
  have hNone : ¬(∃ c ∈ calls, c.isBegin = true) →
      ∀ c ∈ calls, c.isBegin = false := by
    intro h c hc
    rw [Bool.eq_false_iff]
    exact fun hBegin => h ⟨c, hc, hBegin⟩
  refine ⟨⟨?_, ?_⟩, fun hStarts => ⟨?_, ?_⟩⟩
  · intro h
    rcases h with ⟨⟨q, hRun⟩, _⟩
    apply hNone
    intro hBegin
    exact (serialCalls_begin hSeq hBuffer hBegin).1 q hRun
  · intro hCalls
    rcases serialCalls_sequential bodies hSeq hBuffer
      hCalls with ⟨q, hRun, _⟩
    refine ⟨⟨q, hRun⟩, ?_⟩
    intro before id around after hSplit q' hRun'
    have hFirst : ∀ c ∈ before ++ [.pprEnd id around],
        c.isBegin = false := by
      intro c hc
      refine hCalls c ?_
      rw [hSplit]
      simp only [List.mem_append, List.mem_cons,
        List.not_mem_nil, or_false] at hc ⊢
      exact hc.imp_right .inl
    rcases serialCalls_sequential bodies hSeq hBuffer
      hFirst with ⟨q2, hRun2, hEnd⟩
    rw [hRun'] at hRun2
    cases hRun2
    exact hEnd
  · intro hFault
    by_contra hBegin
    rcases serialCalls_sequential bodies hSeq hBuffer
      (hNone hBegin) with ⟨q, hRun, _⟩
    rw [hFault] at hRun
    cases hRun
  · intro hBegin
    exact (serialCalls_begin hSeq hBuffer hBegin).2 hStarts

/- Before the first region of a program. -/
def freshProcess : Process (IoState × Unit) where
  vars := freshVars
  state := (firstIo, ())

/- Forks fail in a group of two. -/
def aroundFailing : Around where
  forked := .failed
  partialSize := fun _ => 2

theorem fellBack_fresh
    {b : Begun (IoState × Unit)}
    (hBegin : freshProcess.pprBegin
      (registeredPorts idleBodies) aroundFailing 1 =
        .ret b) :
    FellBack idleBodies b.caller :=
  .inBegin rfl rfl (Nat.le_refl 2) rfl hBegin

/-
  MAIN cannot fork at its first region, and the next region
  fails in `io_group_init`.
-/
theorem secondBegin_fails :
    ∃ b, freshProcess.pprBegin (registeredPorts idleBodies)
        aroundFailing 1 = .ret b ∧
      FellBack idleBodies b.caller ∧
      serialCalls idleBodies b.caller
        [.pprEnd 1 aroundFailing, .pprBegin 2 aroundFailing,
          .pprEnd 2 aroundFailing] = .fault :=
  ⟨_, rfl, fellBack_fresh rfl, rfl⟩

/- The rest of the region that fell back is safe. -/
theorem fallback_safe_iff_firstEnd :
    ∃ b, freshProcess.pprBegin (registeredPorts idleBodies)
        aroundFailing 1 = .ret b ∧
      FellBack idleBodies b.caller ∧
      (∃ q, serialCalls idleBodies b.caller
        [.pprEnd 1 aroundFailing] = .ret q) ∧
      EndsSequential idleBodies b.caller
        [.pprEnd 1 aroundFailing] := by
  have hBegin : ∃ b, freshProcess.pprBegin
      (registeredPorts idleBodies) aroundFailing 1 =
        .ret b := ⟨_, rfl⟩
  rcases hBegin with ⟨b, hBegin⟩
  refine ⟨b, hBegin, fellBack_fresh hBegin, ?_⟩
  exact (fallback_safe_iff (fellBack_fresh hBegin)
    [.pprEnd 1 aroundFailing]).1.mpr
      (by simp [SerialCall.isBegin])

end Cbop
