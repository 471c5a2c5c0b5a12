import Cbop.Io.Group
import Cbop.Ppr.Awaiting

/-
  What a group prints when its processes race.

  MAIN prints as it runs, the understudy into its buffer,
  and a speculative task that prints is terminated. Whoever
  becomes sequential has then printed the texts of all the
  regions it completed, once and in order, exactly if the
  buffer of the understudy lost none of them. Standard
  output is taken as unbuffered.

  Main declarations:
    * `TextGroup`, `outputMachine`
    * `Buffered`, `Buffered.text_iff`
    * `TasksOut`, `UndyOut`
    * `group_output_sequential`
-/

namespace Cbop

variable {ρ : Type}

------------------------------------------------------------
-- Groups That Print
------------------------------------------------------------

/-
  A group, the texts that the code of each of its regions
  prints (with the gap before it), and the variables that
  `io_group_init` left.
-/
structure TextGroup (ρ : Type) where
  control : Group ρ
  texts : Nat → List Bytes
  vars : Vars
  io : IoState

/-
  The variables of `bop_io.c` in each process, what each has
  to print until the end of its region, and the output.
-/
structure OutputData where
  io : Proc → IoState
  left : Proc → List Bytes
  out : Bytes

/- A step of the protocol, or a call of `BOP_printf`. -/
inductive PrintAct where
| act (label : Proc × Act)
| print (p : Proc)

namespace TextGroup

variable (g : TextGroup ρ)

/- What the regions before region `n` print. -/
def output (n : Nat) : Bytes :=
  ((List.range n).map (fun k => (g.texts k).flatten)).flatten

/- The texts of `n` regions after that of MAIN. -/
def later (n : Nat) : List Bytes :=
  ((List.range n).map (fun k => g.texts (k + 1))).flatten

theorem later_succ (n : Nat) :
    g.later (n + 1) = g.later n ++ g.texts (n + 1) := by
  simp [later, List.range_succ]

theorem output_succ (n : Nat) :
    g.output (n + 1) =
      (g.texts 0).flatten ++ (g.later n).flatten := by
  induction n with
  | zero => simp [output, later]
  | succ n ih =>
      rw [later_succ, List.flatten_append,
        ← List.append_assoc, ← ih]
      simp [output, List.range_succ]

end TextGroup

/- The process runs code of the program. -/
def runsCode (s : State ρ) : Proc → Bool
| .task k => userCode k (s.pc k)
| .undy => s.undy = .running

/- `task_status` of a process of the group. -/
def statusOf : Proc → TaskStatus
| .task k => statusAt k
| .undy => .undy

/- The step takes its process to the end of a region. -/
def endsRegion (s : State ρ) : Proc × Act → Bool
| (.task k, .go) =>
    match s.pc k with
    | .region => true
    | _ => false
| (.undy, .go) => s.undy = .running
| _ => false

namespace OutputData

variable (d : OutputData)

/- The variables of one process. -/
def setIo (p : Proc) (io : IoState) : OutputData :=
  { d with io := Function.update d.io p io }

/- What one process has to print. -/
def setLeft (p : Proc) (texts : List Bytes) : OutputData :=
  { d with left := Function.update d.left p texts }

/- A process calls a function of the I/O port. -/
def call
    (p : Proc)
    (f : IoState → Outcome IoState) :
    Outcome OutputData := do
  let io ← f { d.io p with stdout := d.out }
  pure { d.setIo p io with out := io.stdout }

theorem setIo_self (p : Proc) (io : IoState) :
    (d.setIo p io).io p = io :=
  Function.update_self _ _ _

theorem setIo_of_ne
    {p q : Proc}
    (io : IoState)
    (hq : q ≠ p) :
    (d.setIo p io).io q = d.io q :=
  Function.update_of_ne hq _ _

theorem setIo_keeps
    {P : IoState → Prop}
    {p q : Proc}
    {io : IoState}
    (hIo : P (d.io p) → P io)
    (h : P (d.io q)) :
    P ((d.setIo p io).io q) := by
  by_cases hq : q = p
  · subst hq
    rw [d.setIo_self]
    exact hIo h
  · rw [d.setIo_of_ne io hq]
    exact h

theorem setLeft_self (p : Proc) (texts : List Bytes) :
    (d.setLeft p texts).left p = texts :=
  Function.update_self _ _ _

theorem setLeft_of_ne
    {p q : Proc}
    (texts : List Bytes)
    (hq : q ≠ p) :
    (d.setLeft p texts).left q = d.left q :=
  Function.update_of_ne hq _ _

theorem call_eq_ret_iff
    {d d' : OutputData}
    {p : Proc}
    {f : IoState → Outcome IoState} :
    d.call p f = .ret d' ↔
      ∃ io, f { d.io p with stdout := d.out } = .ret io ∧
        { d.setIo p io with out := io.stdout } = d' := by
  unfold call
  rw [Outcome.bind_eq_ret_iff]
  simp only [Outcome.pure_eq_ret_iff]

/- A call changes the variables of its own process. -/
theorem call_other
    {d d' : OutputData}
    {p q : Proc}
    {f : IoState → Outcome IoState}
    (hCall : d.call p f = .ret d')
    (hq : q ≠ p) :
    d'.io q = d.io q ∧ d'.left q = d.left q := by
  rcases call_eq_ret_iff.mp hCall with ⟨io, -, rfl⟩
  exact ⟨d.setIo_of_ne io hq, rfl⟩

end OutputData

/- The port's part of a step of the protocol. -/
def outputReact
    (g : TextGroup ρ)
    (s : State ρ)
    (label : Proc × Act)
    (d : OutputData) :
    Outcome OutputData :=
  match label with
  | (.task k, .go) =>
      match s.pc k with
      | .gap =>
          -- a task that is forked has a copy of the variables
          if s.partialSize - 1 ≤ k then pure d
          else
            pure (d.setIo (.task (k + 1)) (d.io (.task k)))
      | .region =>
          if k = 0 then
            pure ((d.setIo .undy (d.io (.task 0))).setLeft
              .undy (g.texts 1))
          else pure d
      | .succFini => d.call (.task k) (ioGroupSucc g.vars)
      | _ => pure d
  | (.undy, .go) =>
      match s.undy with
      | .running =>
          pure (d.setLeft .undy
            (g.texts (s.undyPprCount + 2)))
      | .succFini => d.call .undy (ioUndySucc g.vars)
      | _ => pure d
  | _ => pure d

/-
  One step. A region ends when all of it is printed; a
  process that does not return from `BOP_printf` is gone.
-/
def outputStep
    (g : TextGroup ρ)
    (junk : Nat → Nat → UInt8)
    (x : State ρ × OutputData) :
    PrintAct → Option (State ρ × OutputData)
| .act label =>
    if endsRegion x.1 label && !(x.2.left label.1).isEmpty
    then none
    else do
      let s ← step g.control x.1 label
      match outputReact g x.1 label x.2 with
      | .ret d => some (s, d)
      | _ => none
| .print p =>
    if runsCode x.1 p then
      match x.2.left p with
      | [] => none
      | text :: rest =>
          match x.2.call p
              (fun io => bopPrintf junk (statusOf p) io text)
          with
          | .ret d => some (x.1, d.setLeft p rest)
          | _ => do
              let s ← step g.control x.1 (p, .die)
              some (s, x.2)
    else none

/- The runs of a group that prints. -/
def outputMachine
    (g : TextGroup ρ)
    (junk : Nat → Nat → UInt8) :
    Machine (State ρ × OutputData) PrintAct where
  start :=
    (State.init g.control,
      { io := fun _ => g.io
        left := fun p =>
          match p with
          | .task k => g.texts k
          | .undy => []
        out := [] })
  step := outputStep g junk

/- The regions of its group a process has behind it. -/
def State.completed (s : State ρ) : Proc → Nat
| .task k => k + 1
| .undy => s.undyPprCount + 1

/-
  The size shrinks in time and the understudy concedes in
  time.
-/
def OutputInTime
    (g : TextGroup ρ)
    (x : State ρ × OutputData)
    (act : PrintAct) : Prop :=
  ∀ label, act = .act label →
    ShrinksInTime g.control x.1 label ∧
      ConcedesInTime x.1 label

------------------------------------------------------------
-- The Understudy's Buffer
------------------------------------------------------------

/- The buffer after printing `done`, intact or broken. -/
structure Buffered
    (buf : OutputBuffer)
    (done : List Bytes) : Prop where
  used_eq : buf.used = 1 + done.flatten.length
  intact : NeverFills 1 done →
    ∃ data, Printed buf data done.flatten
  broken : ¬NeverFills 1 done → Broken buf

theorem buffered_initBuffer :
    Buffered initBuffer [] where
  used_eq := rfl
  intact := fun _ => ⟨[0], printed_initBuffer⟩
  broken := fun hFills => absurd trivial hFills

theorem neverFills_concat
    {used : Nat}
    {done : List Bytes}
    {s : Bytes} :
    NeverFills used (done ++ [s]) ↔
      NeverFills used done ∧
        (s ≠ [] →
          ¬(used + done.flatten.length +
            s.length).isPowerOfTwo) := by
  induction done generalizing used with
  | nil => simp [NeverFills]
  | cons t done ih =>
      rw [List.cons_append, NeverFills, NeverFills, ih,
        List.flatten_cons, List.length_append,
        ← Nat.add_assoc, and_assoc]

theorem printBuffer_used
    {junk : Nat → Nat → UInt8}
    {buf buf' : OutputBuffer}
    {s : Bytes}
    (hPrint : printBuffer junk buf s = .ret buf') :
    buf'.used = buf.used + s.length := by
  have hSize : ∀ block : Bytes, ∀ pos avail : Nat,
      (vsnprintf block pos avail s).2 = s.length := by
    intro block pos avail
    unfold vsnprintf
    split <;> rfl
  have hAdd : ∀ {b b' : OutputBuffer} {size : Nat},
      addUsed b size = .ret b' →
        b'.used = b.used + size := by
    intro b b' size hAdd
    unfold addUsed at hAdd
    split at hAdd
    · rw [Outcome.pure_eq_ret_iff] at hAdd
      exact hAdd ▸ rfl
    · cases hAdd
  unfold printBuffer at hPrint
  rw [Outcome.bind_eq_ret_iff] at hPrint
  rcases hPrint with ⟨data, -, hPrint⟩
  simp only [hSize] at hPrint
  split at hPrint
  · cases hPrint
  · split at hPrint
    · rw [Outcome.bind_eq_ret_iff] at hPrint
      rcases hPrint with ⟨newSize, -, hPrint⟩
      split at hPrint
      · have hUsed := hAdd hPrint
        exact hUsed
      · cases hPrint
    · have hUsed := hAdd hPrint
      exact hUsed

namespace Buffered

variable {buf buf' : OutputBuffer}
variable {done : List Bytes}

theorem print
    {junk : Nat → Nat → UInt8}
    {s : Bytes}
    (h : Buffered buf done)
    (hPrint : printBuffer junk buf s = .ret buf') :
    Buffered buf' (done ++ [s]) := by
  have hUsed := h.used_eq
  have hAfter := printBuffer_used hPrint
  have hText :
      (done ++ [s]).flatten = done.flatten ++ s := by
    simp
  refine ⟨?_, ?_, ?_⟩
  · rw [hText, List.length_append]
    omega
  · intro hNever
    rcases neverFills_concat.mp hNever with ⟨hDone, hRoom⟩
    rcases h.intact hDone with ⟨data, hPrinted⟩
    rcases printBuffer_keeps junk hPrinted
        (fun hSome hFull => hRoom hSome (by
          rw [← hUsed]
          exact isPowerOfTwo_iff_clog.mpr hFull)) with
      ⟨other, data', hSame, hNew⟩
    have hEq := Outcome.ret.inj (hPrint.symm.trans hSame)
    rw [hText, hEq]
    exact ⟨data', hNew⟩
  · intro hFills
    by_cases hDone : NeverFills 1 done
    · rcases h.intact hDone with ⟨data, hPrinted⟩
      -- the text that is added fills the block
      have hFull : s ≠ [] ∧
          (buf.used + s.length).isPowerOfTwo := by
        by_contra hRoom
        rw [not_and] at hRoom
        refine hFills (neverFills_concat.mpr ⟨hDone, ?_⟩)
        rw [← hUsed]
        exact hRoom
      exact printBuffer_breaks hPrinted hFull.1
        (isPowerOfTwo_iff_clog.mp hFull.2) hPrint
    · exact printBuffer_broken (h.broken hDone) hPrint

/- The text of the buffer is complete if no text filled it. -/
theorem text_iff
    (h : Buffered buf done)
    (hNul : ∀ s ∈ done, (0 : UInt8) ∉ s) :
    buf.text = done.flatten ↔ NeverFills 1 done := by
  have hUsed := h.used_eq
  constructor
  · intro hText
    by_contra hFills
    rcases h.broken hFills with ⟨data, i, hData, hZero, hi⟩
    rw [OutputBuffer.text, hData, Option.getD_some] at hText
    rcases List.takeWhile_prefix (l := data)
      (fun byte => byte ≠ 0) with ⟨rest, hRest⟩
    -- the text would hold the NUL of the byte that was lost
    have hShort : i <
        (data.takeWhile (fun byte => byte ≠ 0)).length := by
      rw [hText]
      omega
    rw [← hRest, List.getElem?_append_left hShort,
      hText] at hZero
    rcases List.mem_flatten.mp (List.mem_of_getElem? hZero)
      with ⟨s, hs, hMem⟩
    exact hNul s hs hMem
  · intro hNever
    rcases h.intact hNever with ⟨data, hPrinted⟩
    have hSplit :
        data = done.flatten ++ 0 :: data.drop buf.used := by
      have hTake := hPrinted.text_eq
      calc
        data = data.take buf.used ++ data.drop buf.used :=
          (List.take_append_drop _ _).symm
        _ = done.flatten ++ 0 :: data.drop buf.used := by
          rw [hTake, List.append_assoc, List.singleton_append]
    have hClean : ∀ byte ∈ done.flatten, byte ≠ 0 := by
      intro byte hByte hZero
      rcases List.mem_flatten.mp hByte with ⟨s, hs, hMem⟩
      exact hNul s hs (hZero ▸ hMem)
    rw [OutputBuffer.text, hPrinted.data_eq,
      Option.getD_some, hSplit,
      List.takeWhile_append_of_pos (by simpa using hClean)]
    simp

end Buffered

------------------------------------------------------------
-- Points
------------------------------------------------------------

/- The task has ended its region and goes on. -/
def pastRegion : Pc ρ → Bool
| .unborn => false
| .gap => false
| .region => false
| .abortSignal => false
| .exited _ => false
| .setSize _ next => pastRegion next
| .setAcquire _ next => pastRegion next
| .setWrite _ next => pastRegion next
| .setRelease next => pastRegion next
| _ => true

namespace UndyPc

/- The understudy runs regions, or is about to. -/
def inRegions : UndyPc → Bool
| .created => true
| .running => true
| _ => false

/- It is past the finish line and has not printed. -/
def pastLine : UndyPc → Bool
| .killSpecs => true
| .killMain => true
| .succFini => true
| _ => false

/- It has printed its buffer. -/
def flushed : UndyPc → Bool
| .setSeq => true
| .seq => true
| _ => false

/- It is there, or conceded, and its buffer not printed. -/
def unflushed (undy : UndyPc) : Bool :=
  undy.inRegions || undy.pastLine || undy = .conceded

end UndyPc

section Moves

variable {cfg : Group ρ}
variable {k psize : Nat}
variable {pc : Pc ρ}
variable {act : Act}
variable {move : Move ρ}

theorem TaskMove.pastRegion
    (h : TaskMove cfg k psize pc act move)
    (hPast : Cbop.pastRegion move.1 = true) :
    Cbop.pastRegion pc = true ∨ pc = .region ∧ act = .go := by
  cases h <;> simp_all [Cbop.pastRegion]

theorem TaskMove.checks
    {i : Nat}
    {passed : Bool}
    (h : TaskMove cfg k psize pc act move)
    (hEnded : Event.checkEnded i passed ∈ move.2.2) :
    i = k ∧ Cbop.pastRegion pc = true := by
  cases h <;> simp_all [Cbop.pastRegion]

end Moves

------------------------------------------------------------
-- The Invariant
------------------------------------------------------------

/- What `io_group_init` leaves. -/
structure GroupIoReady (io : IoState) : Prop where
  buffers : io.outputBuffers =
    some (List.replicate io.numBuffers initBuffer)
  undy : io.undyBuffer = initBuffer

theorem ready_of_ioGroupInit
    {v : Vars}
    {io0 io : IoState}
    (hInit : ioGroupInit v io0 = .ret io) :
    GroupIoReady io := by
  unfold ioGroupInit at hInit
  simp only at hInit
  split at hInit
  · split at hInit
    · rw [Outcome.pure_eq_ret_iff] at hInit
      subst hInit
      exact ⟨rfl, rfl⟩
    · cases hInit
  · cases hInit

/- What `free_all_buffers` leaves. -/
structure BuffersFreed (io : IoState) : Prop where
  buffers : io.outputBuffers = none
  undy : io.undyBuffer.data = none

/- The next `io_group_init` returns. -/
theorem BuffersFreed.init
    {io : IoState}
    (h : BuffersFreed io)
    (v : Vars) :
    ∃ io', ioGroupInit v io = .ret io' := by
  unfold ioGroupInit
  simp only [h.buffers, h.undy, Option.not_mem_none,
    false_implies, implies_true, if_true]
  exact ⟨_, rfl⟩

/- The buffers of the tasks are empty when they are printed. -/
theorem ioGroupSucc_of_ready
    {v : Vars}
    {io : IoState}
    (h : GroupIoReady io) :
    ∃ io', ioGroupSucc v io = .ret io' ∧
      io'.stdout = io.stdout ∧ BuffersFreed io' := by
  have hEmpty : ∀ n, ((List.replicate n initBuffer).map
      OutputBuffer.text).flatten = [] := by
    intro n
    rw [List.flatten_eq_nil_iff]
    intro text hText
    rcases List.mem_map.mp hText with ⟨buf, hBuf, rfl⟩
    rw [List.eq_of_mem_replicate hBuf]
    rfl
  refine ⟨_, rfl, ?_, rfl, rfl⟩
  simp only [freeAllBuffers, h.buffers, Option.getD_some,
    List.take_replicate, Nat.min_self, hEmpty,
    List.append_nil]

/-
  The tasks: who ended a speculative region has nothing to
  print in it, and the buffers are as the group found them
  until a task has become sequential.
-/
structure TasksOut
    (g : TextGroup ρ)
    (s : State ρ)
    (d : OutputData) : Prop where
  left : ∀ k, k ≠ 0 → d.left (.task k) = g.texts k
  printed : ∀ k, k ≠ 0 → pastRegion (s.pc k) = true →
    g.texts k = []
  checked : ∀ k, k ≠ 0 → Event.checkEnded k true ∈ s.log →
    g.texts k = []
  ready : ∀ k, Event.becameSeq (.task k) ∉ s.log →
    GroupIoReady (d.io (.task k))
  freed : ∀ k, Event.becameSeq (.task k) ∈ s.log →
    BuffersFreed (d.io (.task k))

/-
  The output: MAIN's text, then, once the understudy has
  printed its buffer, the texts of its regions, all of them
  exactly if none filled the buffer.
-/
structure UndyOut
    (g : TextGroup ρ)
    (s : State ρ)
    (d : OutputData) : Prop where
  main : s.undy = .unborn →
    d.out ++ (d.left (.task 0)).flatten =
        (g.texts 0).flatten ∧
      s.undyPprCount = 0
  behind : s.undy.unflushed = true →
    d.out = (g.texts 0).flatten
  running : s.undy.inRegions = true →
    ∃ done,
      done ++ d.left .undy = g.later (s.undyPprCount + 1) ∧
        Buffered (d.io .undy).undyBuffer done
  finished : s.undy.pastLine = true →
    Buffered (d.io .undy).undyBuffer
      (g.later s.undyPprCount)
  flushed : s.undy.flushed = true →
    BuffersFreed (d.io .undy) ∧
      (d.out = g.output (s.undyPprCount + 1) ↔
        NeverFills 1 (g.later s.undyPprCount))

section Steps

variable {g : TextGroup ρ}
variable {s s' : State ρ}
variable {d d' : OutputData}
variable {k : Nat}
variable {act : Act}
variable {move : Move ρ}

/- What a move of task `k` does to the data. -/
inductive DataMoved
    (g : TextGroup ρ)
    (s : State ρ)
    (d : OutputData)
    (k : Nat)
    (move : Move ρ) :
    OutputData → Prop where
| same :
    move.2.1 ≠ .spawnUndy →
    Event.becameSeq (.task k) ∉ move.2.2 →
      DataMoved g s d k move d
| fork :
    move.2.1 = .fork →
    move.2.2 = [] →
      DataMoved g s d k move
        (d.setIo (.task (k + 1)) (d.io (.task k)))
| spawn :
    move.2.1 = .spawnUndy →
    move.2.2 = [] →
    d.left (.task 0) = [] →
      DataMoved g s d k move
        ((d.setIo .undy (d.io (.task 0))).setLeft .undy
          (g.texts 1))
| flush
    {d' : OutputData} :
    move.2.1 = .quiet →
    move.2.2 = [.becameSeq (.task k)] →
    d.call (.task k) (ioGroupSucc g.vars) = .ret d' →
      DataMoved g s d k move d'

theorem dataMoved_of_react
    (hMove : TaskMove g.control k s.partialSize (s.pc k) act
      move)
    (hGuard : endsRegion s (.task k, act) = true →
      d.left (.task k) = [])
    (hReact : outputReact g s (.task k, act) d = .ret d') :
    DataMoved g s d k move d' := by
  have hSame :
      outputReact g s (.task k, act) d = .ret d →
        move.2.1 ≠ .spawnUndy →
          Event.becameSeq (.task k) ∉ move.2.2 →
            DataMoved g s d k move d' := by
    intro hData hSpawn hSeq
    rw [hData, Outcome.ret.injEq] at hReact
    exact hReact ▸ .same hSpawn hSeq
  generalize hPc : s.pc k = pc at hMove
  cases hMove
  case beginLast hLast =>
    exact hSame (by simp [outputReact, hPc, hLast])
      (by simp) (by simp)
  case beginFork hInside =>
    simp only [outputReact, hPc,
      if_neg (show ¬s.partialSize - 1 ≤ k by omega),
      Outcome.pure_eq_ret_iff] at hReact
    exact hReact ▸ .fork rfl rfl
  case endMain hMain =>
    subst hMain
    simp only [outputReact, hPc, if_true,
      Outcome.pure_eq_ret_iff] at hReact
    exact hReact ▸ .spawn rfl rfl
      (hGuard (by simp [endsRegion, hPc]))
  case endSpec hSpec =>
    exact hSame (by simp [outputReact, hPc, hSpec])
      (by simp) (by simp)
  case succFini =>
    simp only [outputReact, hPc] at hReact
    exact .flush rfl rfl hReact
  all_goals
    exact hSame (by simp [outputReact, hPc]) (by simp)
      (by simp)

theorem call_ioGroupSucc
    {p : Proc}
    (hReady : GroupIoReady (d.io p))
    (hCall : d.call p (ioGroupSucc g.vars) = .ret d') :
    ∃ io, d' = d.setIo p io ∧ BuffersFreed io := by
  have hShared :
      GroupIoReady { d.io p with stdout := d.out } :=
    ⟨hReady.buffers, hReady.undy⟩
  rcases ioGroupSucc_of_ready (v := g.vars) hShared with
    ⟨io, hIo, hOut, hFreed⟩
  rw [OutputData.call, hIo, Outcome.ret_bind,
    Outcome.pure_eq_ret_iff] at hCall
  refine ⟨io, ?_, hFreed⟩
  rw [← hCall, hOut]
  rfl

/- A task that still moves has not become sequential. -/
theorem not_becameSeq_of_move
    (hSurvivor : SurvivorInv s)
    (hMove : TaskMove g.control k s.partialSize (s.pc k) act
      move) :
    Event.becameSeq (.task k) ∉ s.log := by
  intro hSeq
  have hPc := hSurvivor.seqTask k hSeq
  cases hAt : s.pc k <;> rw [hAt] at hPc <;>
    try cases hPc
  exact hMove.ne_seq hAt

/- A task's move keeps what holds of the tasks. -/
theorem tasksOut_moved
    (hUnspawned : Unspawned s)
    (hSurvivor : SurvivorInv s)
    (hInv : TasksOut g s d)
    (hMove : TaskMove g.control k s.partialSize (s.pc k) act
      move)
    (hMoved : TaskMoved s s' k move)
    (hGuard : endsRegion s (.task k, act) = true →
      d.left (.task k) = [])
    (hData : DataMoved g s d k move d') :
    TasksOut g s' d' := by
  have hSelf := not_becameSeq_of_move hSurvivor hMove
  have hLog := hMoved.log
  refine ⟨?_, ?_, ?_, ?_, ?_⟩
  · intro j hj
    have hOld := hInv.left j hj
    cases hData with
    | same => exact hOld
    | fork => exact hOld
    | spawn =>
        rw [OutputData.setLeft_of_ne _ _ (by simp)]
        exact hOld
    | flush _ _ hCall =>
        rcases call_ioGroupSucc (hInv.ready k hSelf) hCall
          with ⟨io, rfl, -⟩
        exact hOld
  · intro j hj hPast
    by_cases hTask : j = k
    · subst hTask
      rw [hMoved.self] at hPast
      rcases hMove.pastRegion hPast with hOld | ⟨hPc, rfl⟩
      · exact hInv.printed j hj hOld
      · rw [← hInv.left j hj]
        exact hGuard (by simp [endsRegion, hPc])
    · by_cases hGap : s'.pc j = .gap
      · rw [hGap] at hPast
        cases hPast
      · rw [← hMoved.back j hTask hGap] at hPast
        exact hInv.printed j hj hPast
  · intro j hj hEnded
    rw [hLog, List.mem_append] at hEnded
    rcases hEnded with hOld | hNew
    · exact hInv.checked j hj hOld
    · rcases hMove.checks hNew with ⟨rfl, hPast⟩
      exact hInv.printed j hj hPast
  · intro j hNone
    rw [hLog, List.mem_append, not_or] at hNone
    have hOld := hInv.ready j hNone.1
    cases hData with
    | same => exact hOld
    | fork =>
        by_cases hChild : j = k + 1
        · subst hChild
          rw [OutputData.setIo_self]
          exact hInv.ready k hSelf
        · rw [OutputData.setIo_of_ne _ _
            (by simpa using hChild)]
          exact hOld
    | spawn =>
        change GroupIoReady ((d.setIo .undy (d.io (.task 0))).io
          (.task j))
        rw [OutputData.setIo_of_ne _ _ (by simp)]
        exact hOld
    | flush _ hEvents hCall =>
        rcases call_ioGroupSucc (hInv.ready k hSelf) hCall
          with ⟨io, rfl, -⟩
        have hOther : j ≠ k := by
          rintro rfl
          exact hNone.2 (by rw [hEvents]; simp)
        rw [OutputData.setIo_of_ne _ _
          (by simpa using hOther)]
        exact hOld
  · intro j hSeq
    rw [hLog, List.mem_append] at hSeq
    cases hData with
    | same _ hNone =>
        rcases hSeq with hOld | hNew
        · exact hInv.freed j hOld
        · rcases hMove.becameSeq_iff.mp hNew with ⟨hEq, -⟩
          cases hEq
          exact absurd hNew hNone
    | fork hFork hEvents =>
        rcases hSeq with hOld | hNew
        · have hOther : j ≠ k + 1 := by
            rintro rfl
            have hPc := hSurvivor.seqTask (k + 1) hOld
            rw [hUnspawned k (hMove.unspawned.2 hFork).1]
              at hPc
            cases hPc
          rw [OutputData.setIo_of_ne _ _
            (by simpa using hOther)]
          exact hInv.freed j hOld
        · rw [hEvents] at hNew
          cases hNew
    | spawn _ hEvents =>
        rcases hSeq with hOld | hNew
        · change BuffersFreed ((d.setIo .undy (d.io (.task 0))).io
            (.task j))
          rw [OutputData.setIo_of_ne _ _ (by simp)]
          exact hInv.freed j hOld
        · rw [hEvents] at hNew
          cases hNew
    | flush _ hEvents hCall =>
        rcases call_ioGroupSucc (hInv.ready k hSelf) hCall
          with ⟨io, rfl, hFreed⟩
        by_cases hTask : j = k
        · subst hTask
          rw [OutputData.setIo_self]
          exact hFreed
        · rw [OutputData.setIo_of_ne _ _
            (by simpa using hTask)]
          rcases hSeq with hOld | hNew
          · exact hInv.freed j hOld
          · rw [hEvents] at hNew
            simp [hTask] at hNew

/- Nothing changes that concerns the tasks. -/
theorem tasksOut_keep
    (hInv : TasksOut g s d)
    (hPast : ∀ j, pastRegion (s'.pc j) = true →
      pastRegion (s.pc j) = true)
    (hLog : ∀ e : Event ρ, e ≠ .becameSeq .undy →
      (e ∈ s'.log ↔ e ∈ s.log))
    (hLeft : ∀ j, j ≠ 0 →
      d'.left (.task j) = d.left (.task j))
    (hReady : ∀ j, GroupIoReady (d.io (.task j)) →
      GroupIoReady (d'.io (.task j)))
    (hFreed : ∀ j, BuffersFreed (d.io (.task j)) →
      BuffersFreed (d'.io (.task j))) :
    TasksOut g s' d' where
  left := fun j hj => (hLeft j hj).trans (hInv.left j hj)
  printed := fun j hj h => hInv.printed j hj (hPast j h)
  checked := fun j hj h =>
    hInv.checked j hj ((hLog _ (by simp)).mp h)
  ready := fun j h =>
    hReady j (hInv.ready j (fun hOld =>
      h ((hLog _ (by simp)).mpr hOld)))
  freed := fun j h =>
    hFreed j (hInv.freed j ((hLog _ (by simp)).mp h))

/- Nothing changes that concerns the understudy. -/
theorem undyOut_keep
    (hInv : UndyOut g s d)
    (hUndy : s'.undy = s.undy)
    (hCount : s'.undyPprCount = s.undyPprCount)
    (hOut : d'.out = d.out)
    (hMain : d'.left (.task 0) = d.left (.task 0))
    (hLeft : d'.left .undy = d.left .undy)
    (hIo : d'.io .undy = d.io .undy) :
    UndyOut g s' d' := by
  refine ⟨?_, ?_, ?_, ?_, ?_⟩
  · rw [hUndy, hCount, hOut, hMain]
    exact hInv.main
  · rw [hUndy, hOut]
    exact hInv.behind
  · rw [hUndy, hCount, hLeft, hIo]
    exact hInv.running
  · rw [hUndy, hCount, hIo]
    exact hInv.finished
  · rw [hUndy, hCount, hOut, hIo]
    exact hInv.flushed

section Places

variable (hUndy : s'.undy.inRegions = true)
variable (hOver : s'.undy.pastLine = true)
variable (hDone : s'.undy.flushed = true)
variable (hUnborn : s'.undy = .unborn)

include hUnborn in
theorem undyOut_of_unborn
    (hOut : d'.out ++ (d'.left (.task 0)).flatten =
      (g.texts 0).flatten)
    (hZero : s'.undyPprCount = 0) :
    UndyOut g s' d' := by
  refine ⟨fun _ => ⟨hOut, hZero⟩, ?_, ?_, ?_, ?_⟩
  all_goals
    intro h
    rw [hUnborn] at h
    cases h

include hUndy in
theorem undyOut_of_inRegions
    (hOut : d'.out = (g.texts 0).flatten)
    (hRuns : ∃ done,
      done ++ d'.left .undy =
          g.later (s'.undyPprCount + 1) ∧
        Buffered (d'.io .undy).undyBuffer done) :
    UndyOut g s' d' := by
  refine ⟨?_, fun _ => hOut, fun _ => hRuns, ?_, ?_⟩
  all_goals
    intro h
    cases hAt : s'.undy <;> rw [hAt] at hUndy h
    all_goals first | (cases hUndy; done) | cases h

include hOver in
theorem undyOut_of_pastLine
    (hOut : d'.out = (g.texts 0).flatten)
    (hBuf : Buffered (d'.io .undy).undyBuffer
      (g.later s'.undyPprCount)) :
    UndyOut g s' d' := by
  refine ⟨?_, fun _ => hOut, ?_, fun _ => hBuf, ?_⟩
  all_goals
    intro h
    cases hAt : s'.undy <;> rw [hAt] at hOver h
    all_goals first | (cases hOver; done) | cases h

include hDone in
theorem undyOut_of_flushed
    (hFreed : BuffersFreed (d'.io .undy))
    (hOut : d'.out = g.output (s'.undyPprCount + 1) ↔
      NeverFills 1 (g.later s'.undyPprCount)) :
    UndyOut g s' d' := by
  refine ⟨?_, ?_, ?_, ?_, fun _ => ⟨hFreed, hOut⟩⟩
  all_goals
    intro h
    cases hAt : s'.undy <;> rw [hAt] at hDone h
    all_goals first | (cases hDone; done) | cases h

/- It has conceded or died. -/
theorem undyOut_of_gone
    (hGone : s'.undy = .conceded ∨ s'.undy = .died)
    (hOut : s'.undy = .conceded →
      d'.out = (g.texts 0).flatten) :
    UndyOut g s' d' := by
  refine ⟨?_, ?_, ?_, ?_, ?_⟩
  case refine_2 =>
    intro h
    rcases hGone with hAt | hAt
    · exact hOut hAt
    · rw [hAt] at h
      cases h
  all_goals
    intro h
    rcases hGone with hAt | hAt <;> rw [hAt] at h <;>
      cases h

end Places

/- MAIN has printed its text and starts the understudy. -/
theorem undyOut_spawn
    (hTasks : TasksOut g s d)
    (hInv : UndyOut g s d)
    (hUnborn : s.undy = .unborn)
    (hNone : Event.becameSeq (.task 0) ∉ s.log)
    (hUndy : s'.undy = .created)
    (hCount : s'.undyPprCount = s.undyPprCount)
    (hDone : d.left (.task 0) = []) :
    UndyOut g s' ((d.setIo .undy (d.io (.task 0))).setLeft
      .undy (g.texts 1)) := by
  rcases hInv.main hUnborn with ⟨hOut, hZero⟩
  rw [hDone, List.flatten_nil, List.append_nil] at hOut
  refine undyOut_of_inRegions (by rw [hUndy]; rfl) hOut
    ⟨[], ?_, ?_⟩
  · rw [OutputData.setLeft_self, hCount, hZero,
      List.nil_append, TextGroup.later_succ]
    rfl
  · change Buffered ((d.setIo .undy
      (d.io (.task 0))).io .undy).undyBuffer []
    rw [OutputData.setIo_self, (hTasks.ready 0 hNone).undy]
    exact buffered_initBuffer

/- The understudy prints its buffer. -/
theorem undyOut_flush
    (hNul : ∀ n, ∀ text ∈ g.texts n, (0 : UInt8) ∉ text)
    (hInv : UndyOut g s d)
    (hAt : s.undy = .succFini)
    (hUndy : s'.undy = .setSeq)
    (hCount : s'.undyPprCount = s.undyPprCount)
    (hCall : d.call .undy (ioUndySucc g.vars) = .ret d') :
    UndyOut g s' d' := by
  have hOut := hInv.behind (by rw [hAt]; rfl)
  have hOver := hInv.finished (by rw [hAt]; rfl)
  have hClean : ∀ text ∈ g.later s.undyPprCount,
      (0 : UInt8) ∉ text := by
    intro text hText
    rcases List.mem_flatten.mp hText with ⟨all, hAll, hMem⟩
    rcases List.mem_map.mp hAll with ⟨n, -, rfl⟩
    exact hNul (n + 1) text hMem
  simp only [OutputData.call, ioUndySucc, pure_bind,
    Outcome.pure_eq_ret_iff] at hCall
  subst hCall
  refine undyOut_of_flushed (by rw [hUndy]; rfl) ?_ ?_
  · change BuffersFreed ((d.setIo .undy _).io .undy)
    rw [OutputData.setIo_self]
    exact ⟨rfl, rfl⟩
  · rw [hCount, TextGroup.output_succ]
    change d.out ++ (d.io .undy).undyBuffer.text = _ ↔ _
    rw [hOut, List.append_right_inj]
    exact hOver.text_iff hClean

/- A step of the understudy changes its own data. -/
theorem undyReact_frame
    (hReact : outputReact g s (.undy, act) d = .ret d')
    (k : Nat) :
    d'.io (.task k) = d.io (.task k) ∧
      d'.left (.task k) = d.left (.task k) := by
  have hSame : d = d' →
      d'.io (.task k) = d.io (.task k) ∧
        d'.left (.task k) = d.left (.task k) := by
    rintro rfl
    exact ⟨rfl, rfl⟩
  cases act
  case go =>
    cases hUndy : s.undy
    case running =>
      simp only [outputReact, hUndy,
        Outcome.pure_eq_ret_iff] at hReact
      subst hReact
      exact ⟨rfl, d.setLeft_of_ne _ (by simp)⟩
    case succFini =>
      simp only [outputReact, hUndy] at hReact
      exact OutputData.call_other hReact (by simp)
    all_goals
      simp only [outputReact, hUndy,
        Outcome.pure_eq_ret_iff] at hReact
      exact hSame hReact
  all_goals
    simp only [outputReact, Outcome.pure_eq_ret_iff]
      at hReact
    exact hSame hReact

/- A step of the understudy, as far as the output goes. -/
theorem undyOut_undy
    (hNul : ∀ n, ∀ text ∈ g.texts n, (0 : UInt8) ∉ text)
    (hInv : UndyOut g s d)
    (hOk : ConcedesInTime s (.undy, act))
    (hGuard : endsRegion s (.undy, act) = true →
      d.left .undy = [])
    (hReact : outputReact g s (.undy, act) d = .ret d')
    (hMove : UndyMove g.control s act s') :
    UndyOut g s' d' := by
  have hIdle :
      outputReact g s (.undy, act) d = .ret d → d' = d :=
    fun h => Outcome.ret.inj (hReact.symm.trans h)
  have hBehind := hInv.behind
  have hRunning := hInv.running
  have hOver := hInv.finished
  have hFlushed := hInv.flushed
  cases hMove with
  | created hAt =>
      obtain rfl := hIdle (by simp [outputReact, hAt])
      rw [hAt] at hBehind hRunning
      exact undyOut_of_inRegions rfl (hBehind rfl)
        (hRunning rfl)
  | goOn hAt =>
      have hLeft := hGuard (by simp [endsRegion, hAt])
      rw [hAt] at hBehind hRunning
      simp only [outputReact, hAt, Outcome.pure_eq_ret_iff]
        at hReact
      subst hReact
      rcases hRunning rfl with ⟨done, hText, hBuf⟩
      rw [hLeft, List.append_nil] at hText
      refine undyOut_of_inRegions (by rw [hAt]; rfl)
        (hBehind rfl) ⟨done, ?_, hBuf⟩
      rw [OutputData.setLeft_self, hText]
      exact (g.later_succ _).symm
  | finishLine hAt =>
      have hLeft := hGuard (by simp [endsRegion, hAt])
      rw [hAt] at hBehind hRunning
      simp only [outputReact, hAt, Outcome.pure_eq_ret_iff]
        at hReact
      subst hReact
      rcases hRunning rfl with ⟨done, hText, hBuf⟩
      rw [hLeft, List.append_nil] at hText
      subst hText
      exact undyOut_of_pastLine rfl (hBehind rfl) hBuf
  | killSpecs hAt =>
      obtain rfl := hIdle (by simp [outputReact, hAt])
      rw [hAt] at hBehind hOver
      exact undyOut_of_pastLine rfl (hBehind rfl)
        (hOver rfl)
  | killMain hAt =>
      obtain rfl := hIdle (by simp [outputReact, hAt])
      rw [hAt] at hBehind hOver
      exact undyOut_of_pastLine rfl (hBehind rfl)
        (hOver rfl)
  | succFini hAt =>
      simp only [outputReact, hAt] at hReact
      exact undyOut_flush hNul hInv hAt rfl rfl hReact
  | setSeq hAt =>
      obtain rfl := hIdle (by simp [outputReact, hAt])
      rw [hAt] at hFlushed
      exact undyOut_of_flushed rfl (hFlushed rfl).1
        (hFlushed rfl).2
  | usr1 hUsr hAlive =>
      obtain rfl := hIdle rfl
      -- it concedes before it has printed its buffer
      have hTime := hOk rfl
      have hThere : s.undy.unflushed = true := by
        cases hAt : s.undy <;> rw [hAt] at hAlive hTime
        all_goals
          first
          | rfl
          | (cases hAlive; done)
          | cases hTime
      exact undyOut_of_gone (.inl rfl)
        (fun _ => hBehind hThere)
  | usr2 hAlive =>
      obtain rfl := hIdle rfl
      exact undyOut_keep hInv rfl rfl rfl rfl rfl rfl
  | die hAlive =>
      exact undyOut_of_gone (.inr rfl)
        (fun h => by cases h)

/- A move of a task. -/
theorem out_move
    {s₁ : State ρ}
    (hUnspawned : Unspawned s)
    (hSurvivor : SurvivorInv s)
    (hTasks : TasksOut g s d)
    (hUndy : UndyOut g s d)
    (hMove : TaskMove g.control k s.partialSize (s.pc k) act
      move)
    (hApply : s.apply k move.2.1 = some s₁)
    (hGuard : endsRegion s (.task k, act) = true →
      d.left (.task k) = [])
    (hReact : outputReact g s (.task k, act) d = .ret d') :
    TasksOut g (s.moved s₁ k move) d' ∧
      UndyOut g (s.moved s₁ k move) d' := by
  have hMoved := taskMoved_of_apply hUnspawned hMove hApply
  have hData := dataMoved_of_react hMove hGuard hReact
  have hCount : (s.moved s₁ k move).undyPprCount =
      s.undyPprCount := by
    change s₁.undyPprCount = s.undyPprCount
    exact apply_undyPprCount hApply
  have hSame : move.2.1 ≠ .spawnUndy →
      (s.moved s₁ k move).undy = s.undy := by
    intro hSpawn
    rw [hMoved.undy, if_neg hSpawn]
  refine ⟨tasksOut_moved hUnspawned hSurvivor hTasks hMove
    hMoved hGuard hData, ?_⟩
  cases hData with
  | same hSpawn =>
      exact undyOut_keep hUndy (hSame hSpawn) hCount rfl rfl
        rfl rfl
  | fork hFork =>
      exact undyOut_keep hUndy (hSame (by simp [hFork]))
        hCount rfl rfl rfl (d.setIo_of_ne _ (by simp))
  | spawn hSpawn hEvents hDone =>
      rcases hMove.spawns_iff.mp hSpawn with ⟨rfl, -, hPc⟩
      have hNone := not_becameSeq_of_move hSurvivor hMove
      exact undyOut_spawn hTasks hUndy
        (hSurvivor.unborn (by rw [hPc]; rfl)) hNone
        (by rw [hMoved.undy, if_pos hSpawn]) hCount hDone
  | flush hQuiet hEvents hCall =>
      have hSelf := not_becameSeq_of_move hSurvivor hMove
      rcases call_ioGroupSucc (hTasks.ready k hSelf) hCall
        with ⟨io, rfl, -⟩
      exact undyOut_keep hUndy (hSame (by simp [hQuiet]))
        hCount rfl rfl rfl (d.setIo_of_ne _ (by simp))

/- A step of the protocol. -/
theorem out_step
    {label : Proc × Act}
    (hNul : ∀ n, ∀ text ∈ g.texts n, (0 : UInt8) ∉ text)
    (hUnspawned : Unspawned s)
    (hSurvivor : SurvivorInv s)
    (hTasks : TasksOut g s d)
    (hUndy : UndyOut g s d)
    (hOk : ConcedesInTime s label)
    (hGuard : endsRegion s label = true →
      d.left label.1 = [])
    (hReact : outputReact g s label d = .ret d')
    (hStep : step g.control s label = some s') :
    TasksOut g s' d' ∧ UndyOut g s' d' := by
  cases stepped_of_step hStep with
  | move hMove hApply =>
      exact out_move hUnspawned hSurvivor hTasks hUndy hMove
        hApply hGuard hReact
  | @usr1 k hUsr hAlive =>
      obtain rfl : d = d' := Outcome.ret.inj hReact
      have hSame := taskUsr1_undy s k
      refine ⟨tasksOut_keep hTasks ?_ ?_ (fun _ _ => rfl)
        (fun _ h => h) (fun _ h => h),
        undyOut_keep hUndy hSame.1 hSame.2.1 rfl rfl rfl rfl⟩
      · intro j hPast
        by_cases hLast : k = s.partialSize - 1
        · rwa [State.taskUsr1, if_pos hLast] at hPast
        · rw [State.taskUsr1, if_neg hLast] at hPast
          exact view_of_ended rfl pastRegion rfl j hPast
      · intro e _
        rw [hSame.2.2]
  | @usr2 k hUsr hAlive =>
      obtain rfl : d = d' := Outcome.ret.inj hReact
      refine ⟨tasksOut_keep hTasks ?_ (fun _ _ => Iff.rfl)
        (fun _ _ => rfl) (fun _ h => h) (fun _ h => h),
        undyOut_keep hUndy rfl rfl rfl rfl rfl rfl⟩
      intro j hPast
      exact view_of_ended rfl pastRegion rfl j hPast
  | undy hMove =>
      have hFrame := hMove.frame
      have hData := undyReact_frame hReact
      refine ⟨tasksOut_keep hTasks ?_ ?_ ?_ ?_ ?_,
        undyOut_undy hNul hUndy hOk hGuard hReact hMove⟩
      · intro j hPast
        rwa [hFrame.1] at hPast
      · intro e he
        exact mem_log_of_aside hFrame.2.2.2 he
      · intro j _
        exact (hData j).2
      · intro j h
        rw [(hData j).1]
        exact h
      · intro j h
        rw [(hData j).1]
        exact h

/- MAIN prints. -/
theorem out_print_main
    {junk : Nat → Nat → UInt8}
    {text : Bytes}
    {rest : List Bytes}
    (hSurvivor : SurvivorInv s)
    (hTasks : TasksOut g s d)
    (hUndy : UndyOut g s d)
    (hRuns : runsCode s (.task 0) = true)
    (hLeft : d.left (.task 0) = text :: rest)
    (hCall : d.call (.task 0)
      (fun io => bopPrintf junk .main io text) = .ret d') :
    TasksOut g s (d'.setLeft (.task 0) rest) ∧
      UndyOut g s (d'.setLeft (.task 0) rest) := by
  have hUnborn : s.undy = .unborn := by
    apply hSurvivor.unborn
    cases hPc : s.pc 0 <;>
      simp_all [runsCode, userCode, unended]
  rcases OutputData.call_eq_ret_iff.mp hCall with
    ⟨io, hPrint, rfl⟩
  simp only [bopPrintf, Outcome.pure_eq_ret_iff] at hPrint
  subst hPrint
  constructor
  · refine tasksOut_keep hTasks (fun _ h => h)
      (fun _ _ => Iff.rfl) ?_ ?_ ?_
    · intro j hj
      exact OutputData.setLeft_of_ne _ _ (by simpa using hj)
    · intro j
      exact d.setIo_keeps (P := GroupIoReady)
        (fun h => ⟨h.buffers, h.undy⟩)
    · intro j
      exact d.setIo_keeps (P := BuffersFreed)
        (fun h => ⟨h.buffers, h.undy⟩)
  · rcases hUndy.main hUnborn with ⟨hOut, hZero⟩
    rw [hLeft, List.flatten_cons, ← List.append_assoc]
      at hOut
    refine undyOut_of_unborn hUnborn ?_ hZero
    rw [OutputData.setLeft_self]
    exact hOut

/- The understudy prints. -/
theorem out_print_undy
    {junk : Nat → Nat → UInt8}
    {text : Bytes}
    {rest : List Bytes}
    (hTasks : TasksOut g s d)
    (hUndy : UndyOut g s d)
    (hRuns : runsCode s .undy = true)
    (hLeft : d.left .undy = text :: rest)
    (hCall : d.call .undy
      (fun io => bopPrintf junk .undy io text) = .ret d') :
    TasksOut g s (d'.setLeft .undy rest) ∧
      UndyOut g s (d'.setLeft .undy rest) := by
  have hRunning : s.undy = .running := by
    simpa [runsCode] using hRuns
  constructor
  · have hSame : ∀ j, d'.io (.task j) = d.io (.task j) ∧
        d'.left (.task j) = d.left (.task j) := by
      intro j
      exact OutputData.call_other hCall (by simp)
    refine tasksOut_keep hTasks (fun _ h => h)
      (fun _ _ => Iff.rfl) ?_ ?_ ?_
    · intro j _
      rw [OutputData.setLeft_of_ne _ _ (by simp)]
      exact (hSame j).2
    · intro j h
      change GroupIoReady (d'.io (.task j))
      rw [(hSame j).1]
      exact h
    · intro j h
      change BuffersFreed (d'.io (.task j))
      rw [(hSame j).1]
      exact h
  · rcases OutputData.call_eq_ret_iff.mp hCall with
      ⟨io, hPrint, rfl⟩
    simp only [bopPrintf, Outcome.bind_eq_ret_iff,
      Outcome.pure_eq_ret_iff] at hPrint
    rcases hPrint with ⟨buf, hBuf, rfl⟩
    rcases hUndy.running (by rw [hRunning]; rfl) with
      ⟨done, hText, hOld⟩
    refine undyOut_of_inRegions (by rw [hRunning]; rfl)
      (hUndy.behind (by rw [hRunning]; rfl))
      ⟨done ++ [text], ?_, ?_⟩
    · rw [OutputData.setLeft_self, ← hText, hLeft,
        List.append_assoc, List.singleton_append]
    · change Buffered
        ((d.setIo .undy _).io .undy).undyBuffer _
      rw [d.setIo_self]
      exact hOld.print hBuf

/- A call of `BOP_printf` that returns. -/
theorem out_print
    {junk : Nat → Nat → UInt8}
    {p : Proc}
    {text : Bytes}
    {rest : List Bytes}
    (hSurvivor : SurvivorInv s)
    (hTasks : TasksOut g s d)
    (hUndy : UndyOut g s d)
    (hRuns : runsCode s p = true)
    (hLeft : d.left p = text :: rest)
    (hCall : d.call p
      (fun io => bopPrintf junk (statusOf p) io text) =
        .ret d') :
    TasksOut g s (d'.setLeft p rest) ∧
      UndyOut g s (d'.setLeft p rest) := by
  cases p with
  | task k =>
      by_cases hMain : k = 0
      · subst hMain
        exact out_print_main hSurvivor hTasks hUndy hRuns
          hLeft hCall
      · -- `BOP_printf` does not return to a SPEC
        rcases OutputData.call_eq_ret_iff.mp hCall with
          ⟨io, hPrint, -⟩
        simp only [statusOf, statusAt, if_neg hMain,
          bopPrintf] at hPrint
        split at hPrint <;> cases hPrint
  | undy =>
      exact out_print_undy hTasks hUndy hRuns hLeft hCall

end Steps

------------------------------------------------------------
-- Runs
------------------------------------------------------------

/- What holds in every run of a group that prints. -/
structure OutputInv
    (g : TextGroup ρ)
    (x : State ρ × OutputData) : Prop where
  control : (protocol g.control).Reachable
    (fun s label =>
      ShrinksInTime g.control s label ∧
        ConcedesInTime s label) x.1
  tasks : TasksOut g x.1 x.2
  undy : UndyOut g x.1 x.2

section Runs

variable {g : TextGroup ρ}
variable {junk : Nat → Nat → UInt8}
variable {x x' : State ρ × OutputData}

theorem outputInv_start
    (hReady : GroupIoReady g.io) :
    OutputInv g (outputMachine g junk).start := by
  refine ⟨.start, ⟨fun _ _ => rfl, ?_, ?_,
    fun _ _ => hReady, ?_⟩, undyOut_of_unborn rfl rfl rfl⟩
  · intro k hk hPast
    simp [outputMachine, State.init, hk, pastRegion] at hPast
  · intro k _ hEnded
    cases hEnded
  · intro k hSeq
    cases hSeq

/- A step of the protocol within the run. -/
theorem outputInv_act
    {label : Proc × Act}
    {s : State ρ}
    {d : OutputData}
    (hNul : ∀ n, ∀ text ∈ g.texts n, (0 : UInt8) ∉ text)
    (hInv : OutputInv g x)
    (hOk : ShrinksInTime g.control x.1 label ∧
      ConcedesInTime x.1 label)
    (hGuard : endsRegion x.1 label = true →
      x.2.left label.1 = [])
    (hReact : outputReact g x.1 label x.2 = .ret d)
    (hStep : step g.control x.1 label = some s) :
    OutputInv g (s, d) := by
  have hOut := out_step hNul
    (unspawned_of_reachable hInv.control)
    (survivorInv_of_reachable hInv.control)
    hInv.tasks hInv.undy hOk.2 hGuard hReact hStep
  exact ⟨.step hInv.control hOk hStep, hOut.1, hOut.2⟩

theorem outputInv_step
    {act : PrintAct}
    (hNul : ∀ n, ∀ text ∈ g.texts n, (0 : UInt8) ∉ text)
    (hInv : OutputInv g x)
    (hOk : OutputInTime g x act)
    (hStep : (outputMachine g junk).step x act = some x') :
    OutputInv g x' := by
  cases act with
  | act label =>
      simp only [outputMachine, outputStep,
        Option.ite_none_left_eq_some, Option.bind_eq_bind,
        Option.bind_eq_some_iff] at hStep
      rcases hStep with ⟨hGuard, s, hControl, hStep⟩
      split at hStep
      · rename_i d hReact
        cases hStep
        refine outputInv_act hNul hInv (hOk label rfl) ?_
          hReact hControl
        intro hEnds
        simpa [hEnds] using hGuard
      · cases hStep
  | print p =>
      simp only [outputMachine, outputStep,
        Option.ite_none_right_eq_some] at hStep
      rcases hStep with ⟨hRuns, hStep⟩
      split at hStep
      · cases hStep
      · rename_i text rest hLeft
        split at hStep
        · rename_i d hCall
          cases hStep
          have hOut := out_print
            (survivorInv_of_reachable hInv.control)
            hInv.tasks hInv.undy hRuns hLeft hCall
          exact ⟨hInv.control, hOut.1, hOut.2⟩
        · -- the process has left in `BOP_printf`
          simp only [Option.bind_eq_bind,
            Option.bind_eq_some_iff] at hStep
          rcases hStep with ⟨s, hControl, hStep⟩
          cases hStep
          refine outputInv_act hNul hInv ⟨?_, ?_⟩ ?_ ?_
            hControl
          · intro k n hLabel
            cases hLabel
          · intro hLabel
            cases hLabel
          · intro hEnds
            cases p <;> cases hEnds
          · cases p <;> rfl

theorem outputInv_of_reachable
    (hReady : GroupIoReady g.io)
    (hNul : ∀ n, ∀ text ∈ g.texts n, (0 : UInt8) ∉ text)
    (h : (outputMachine g junk).Reachable (OutputInTime g)
      x) :
    OutputInv g x := by
  apply h.invariant (OutputInv g)
  · exact outputInv_start hReady
  · intro x act x' _ hInv hOk hStep
    exact outputInv_step hNul hInv hOk hStep

end Runs

section Winner

variable {g : TextGroup ρ}
variable {s : State ρ}
variable {d : OutputData}

/- The winner is a task: only MAIN has printed anything. -/
theorem output_of_task
    {j : Nat}
    (hInv : OutputInv g (s, d))
    (hSeq : Event.becameSeq (.task j) ∈ s.log) :
    d.out = g.output (j + 1) := by
  have hSurvivor : SurvivorInv s :=
    survivorInv_of_reachable hInv.control
  have hAt := hSurvivor.seqTask j hSeq
  have hConceded : s.undy = .conceded := by
    by_contra hRacing
    have hNot := (hSurvivor.racing hRacing).2 j
    rw [outlived_of_isSeq hAt] at hNot
    cases hNot
  have hShrinks :
      (protocol g.control).Reachable
        (ShrinksInTime g.control) s :=
    hInv.control.mono (fun _ _ hOk => hOk.1)
  have hCommitted : Event.groupCommitted j ∈ s.log := by
    apply (proceedInv_of_reachable hShrinks).committer j
    exact committer_of_claims
      (claims_of_outlived (outlived_of_isSeq hAt))
  -- the tasks that it committed did not print
  have hSilent : g.later j = [] := by
    apply List.flatten_eq_nil_iff.mpr
    intro texts hTexts
    rcases List.mem_map.mp hTexts with ⟨k, hk, rfl⟩
    rw [List.mem_range] at hk
    exact hInv.tasks.checked (k + 1) (by omega)
      (checked_of_committed hShrinks hCommitted hk)
  rw [g.output_succ, hSilent, List.flatten_nil,
    List.append_nil]
  exact hInv.undy.behind (by rw [hConceded]; rfl)

end Winner

/- Nothing shrinks the group, and nobody concedes. -/
def unshrunkTest
    (g : TextGroup ρ)
    (x : State ρ × OutputData) :
    PrintAct → Bool
| .act (.task k, .go) =>
    (nextSize g.control x.1.partialSize (x.1.pc k)).isNone
| .act (.undy, .usr1) => false
| _ => true

theorem outputInTime_of_test
    {g : TextGroup ρ}
    {x : State ρ × OutputData}
    {act : PrintAct}
    (h : unshrunkTest g x act = true) :
    OutputInTime g x act := by
  rintro label rfl
  refine ⟨?_, ?_⟩
  · rintro k n rfl hNext
    simp [unshrunkTest, hNext] at h
  · rintro rfl
    cases h

/- MAIN and task 1 of a group of two print. -/
def textPair : TextGroup Unit where
  control := pair
  texts := fun k => if k = 0 then [[97]] else [[98, 99]]
  vars := freshVars
  io := { firstIo with
    outputBuffers := some [initBuffer]
    undyBuffer := initBuffer
    numBuffers := 1 }

end Cbop
