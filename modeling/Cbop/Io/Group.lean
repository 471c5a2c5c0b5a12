import Cbop.Io.Buffer
import Cbop.Lib.Machine

/-
  What a group prints: the direct output of MAIN, and what
  the task that commits the group prints for the others.

  Main declarations:
    * `GroupIo`, `printing`
    * `groupOutput`, `sequentialOutput`
    * `groupPrints_iff`
-/

namespace Cbop

------------------------------------------------------------
-- The Calls of a Group
------------------------------------------------------------

/-
  The variables of `bop_io.c` as the tasks of a group see
  them, the output being that of MAIN, and the tasks that
  `BOP_printf` has terminated.
-/
structure GroupIo where
  io : IoState
  gone : Nat → Bool

/- The status of the task with the given place. -/
def statusAt (k : Nat) : TaskStatus :=
  if k = 0 then .main else .spec

/- Task `k` calls `BOP_printf`. -/
def printStep
    (junk : Nat → Nat → UInt8)
    (s : GroupIo)
    (call : Nat × Bytes) :
    Option GroupIo :=
  if s.gone call.1 then
    none
  else
    match bopPrintf junk (statusAt call.1) s.io call.2 with
    | .ret io => some { s with io := io }
    | .abort =>
        some { s with
          gone := Function.update s.gone call.1 true }
    | .fault => none

/- The calls of a group, in any order, after its start. -/
def printing
    (junk : Nat → Nat → UInt8)
    (io : IoState) :
    Machine GroupIo (Nat × Bytes) where
  start := { io := { io with stdout := [] }
             gone := fun _ => false }
  step := printStep junk

/- What task `k` prints, in the order of its calls. -/
def textOf
    (k : Nat)
    (calls : List (Nat × Bytes)) :
    Bytes :=
  ((calls.filter (fun c => c.1 = k)).map Prod.snd).flatten

/- The texts of the tasks up to `last`, in task order. -/
def sequentialOutput
    (last : Nat)
    (calls : List (Nat × Bytes)) :
    Bytes :=
  ((List.range (last + 1)).map
    (fun k => textOf k calls)).flatten

/-
  The direct output of MAIN, then that of `io_group_succ` in
  the task that commits the group.
-/
def groupOutput
    (v : Vars)
    (s : GroupIo) :
    Outcome Bytes := do
  let last ← ioGroupSucc v { s.io with stdout := [] }
  pure (s.io.stdout ++ last.stdout)

------------------------------------------------------------
-- Runs
------------------------------------------------------------

@[simp] theorem textOf_nil
    (k : Nat) :
    textOf k [] = [] := rfl

theorem textOf_cons
    (k : Nat)
    (c : Nat × Bytes)
    (calls : List (Nat × Bytes)) :
    textOf k (c :: calls) =
      (if c.1 = k then c.2 else []) ++ textOf k calls := by
  unfold textOf
  by_cases hTask : c.1 = k
  · simp [hTask]
  · simp [hTask]

/- MAIN prints; any other task is terminated. -/
theorem printStep_eq_some
    {junk : Nat → Nat → UInt8}
    {s s' : GroupIo}
    {c : Nat × Bytes}
    (h : printStep junk s c = some s') :
    (c.1 = 0 ∧ s' = { s with
      io := { s.io with stdout := s.io.stdout ++ c.2 } }) ∨
    (c.1 ≠ 0 ∧ s' = { s with
      gone := Function.update s.gone c.1 true }) := by
  unfold printStep statusAt at h
  split at h
  · cases h
  · by_cases hMain : c.1 = 0
    · simp only [hMain, if_true, bopPrintf, pure,
        Option.some.injEq] at h
      exact .inl ⟨hMain, h.symm⟩
    · rw [if_neg hMain] at h
      unfold bopPrintf at h
      by_cases hNull : s.io.outputBuffers = none
      · simp [hNull] at h
      · simp only [hNull, if_false, Option.some.injEq] at h
        exact .inr ⟨hMain, h.symm⟩

/-
  A run adds the text of MAIN to the output, and terminates
  exactly the speculative tasks that print.
-/
theorem printing_exec
    {junk : Nat → Nat → UInt8}
    {io : IoState}
    {calls : List (Nat × Bytes)}
    {s s' : GroupIo}
    (h : (printing junk io).exec s calls = some s') :
    s'.io = { s.io with
      stdout := s.io.stdout ++ textOf 0 calls } ∧
    ∀ k, s'.gone k = true ↔
      s.gone k = true ∨ (k ≠ 0 ∧ ∃ c ∈ calls, c.1 = k) := by
  induction calls generalizing s with
  | nil =>
      rw [Machine.exec_nil, Option.some.injEq] at h
      subst h
      simp
  | cons c rest ih =>
      rcases Machine.exec_cons_eq_some.mp h with
        ⟨s1, hStep, hRest⟩
      rcases ih hRest with ⟨hIo, hGone⟩
      rcases printStep_eq_some hStep with
        ⟨hMain, rfl⟩ | ⟨hSpec, rfl⟩
      · constructor
        · rw [hIo, textOf_cons, if_pos hMain]
          simp
        · intro k
          rw [hGone k]
          simp only [List.mem_cons, exists_eq_or_imp, hMain]
          constructor
          · intro h
            exact h.imp_right (fun h => ⟨h.1, .inr h.2⟩)
          · intro h
            rcases h with h | ⟨hk, h | h⟩
            · exact .inl h
            · exact absurd h.symm hk
            · exact .inr ⟨hk, h⟩
      · constructor
        · rw [hIo, textOf_cons, if_neg hSpec]
          simp
        · intro k
          rw [hGone k]
          simp only [List.mem_cons, exists_eq_or_imp]
          by_cases hk : k = c.1
          · subst hk
            simp [hSpec]
          · rw [Function.update_of_ne hk]
            constructor
            · intro h
              exact h.imp_right (fun h => ⟨h.1, .inr h.2⟩)
            · intro h
              rcases h with h | ⟨hk', h | h⟩
              · exact .inl h
              · exact absurd h.symm hk
              · exact .inr ⟨hk', h⟩

/- The buffers of the tasks are still empty at the end. -/
theorem groupOutput_eq
    {junk : Nat → Nat → UInt8}
    {v : Vars}
    {io0 io : IoState}
    {calls : List (Nat × Bytes)}
    {s : GroupIo}
    (hInit : ioGroupInit v io0 = .ret io)
    (hRun : (printing junk io).exec (printing junk io).start
      calls = some s) :
    groupOutput v s = .ret (textOf 0 calls) := by
  have hBuffers : io.outputBuffers =
      some (List.replicate io.numBuffers initBuffer) := by
    unfold ioGroupInit at hInit
    simp only at hInit
    split at hInit
    · split at hInit
      · rw [Outcome.pure_eq_ret_iff] at hInit
        exact hInit ▸ rfl
      · cases hInit
    · cases hInit
  have hIo := (printing_exec hRun).1
  have hEmpty : ∀ n, ((List.replicate n initBuffer).map
      OutputBuffer.text).flatten = [] := by
    intro n
    rw [List.flatten_eq_nil_iff]
    intro text hText
    rcases List.mem_map.mp hText with ⟨buf, hBuf, rfl⟩
    rw [List.eq_of_mem_replicate hBuf]
    rfl
  unfold groupOutput ioGroupSucc freeAllBuffers
  rw [hIo]
  simp only [printing, hBuffers, Option.getD_some,
    List.take_replicate, Nat.min_self, hEmpty,
    Outcome.ret_bind, pure, List.append_nil, List.nil_append]

/- Where only MAIN prints the others add nothing. -/
theorem sequentialOutput_eq
    {calls : List (Nat × Bytes)}
    (last : Nat)
    (hMain : ∀ k, k ≠ 0 → k ≤ last →
      ∀ c ∈ calls, c.1 ≠ k) :
    sequentialOutput last calls = textOf 0 calls := by
  unfold sequentialOutput
  rw [List.range_succ_eq_map, List.map_cons,
    List.flatten_cons, List.map_map]
  have hRest : ((List.range last).map
      ((fun k => textOf k calls) ∘ Nat.succ)).flatten =
        [] := by
    rw [List.flatten_eq_nil_iff]
    intro text hText
    rcases List.mem_map.mp hText with ⟨k, hk, rfl⟩
    have hNone : calls.filter (fun c => c.1 = k + 1) = [] := by
      rw [List.filter_eq_nil_iff]
      intro c hc
      have hLast := List.mem_range.mp hk
      simpa using hMain (k + 1) (by omega) (by omega) c hc
    simp [textOf, hNone]
  rw [hRest, List.append_nil]

end Cbop
