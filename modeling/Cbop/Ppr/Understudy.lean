import Cbop.Io.Buffer

/-
  The regions an understudy completes.

  The understudy is forked at the end of MAIN's region and
  inherits `ppr_static_id`. `_BOP_ppr_begin` returns for the
  understudy before it sets that variable, so that only the
  regions with the identifier of MAIN's region are counted.

  Main declarations:
    * `PortBodies`, `registeredPorts`
    * `undyRegions`
    * `undyRegions_count_iff`
-/

namespace Cbop

variable {σ : Type}

------------------------------------------------------------
-- The Registered Ports
------------------------------------------------------------

/-
  The callbacks of the ports other than the I/O port. Those
  of the malloc port are not part of the library.
-/
structure PortBodies (σ : Type) where
  bopMergeInit : Callback σ
  mergePprReset : Callback σ
  pprIsCorrect : Vars → σ → Outcome (σ × Bool)
  mergePprCommit : Callback σ
  pprGroupCommit : Callback σ
  postwaitInit : Callback σ
  postwaitPprReset : Callback σ
  postwaitPprCommit : Callback σ
  orderedPprReset : Callback σ
  beginspec : Callback σ
  endspec : Callback σ
  promoteList : Callback σ

/- A callback of the I/O port. -/
def onIo (f : Callback IoState) : Callback (IoState × σ) :=
  fun v st => do
    let io ← f v st.1
    pure (io, st.2)

/- A callback of another port. -/
def onRest (f : Callback σ) : Callback (IoState × σ) :=
  fun v st => do
    let rest ← f v st.2
    pure (st.1, rest)

/- The ports in the order in which `BOP_init` adds them. -/
def registeredPorts
    (bodies : PortBodies σ) :
    List (Port (IoState × σ)) :=
  [ -- `bop_merge_port`
    { pprGroupInit := some (onRest bodies.bopMergeInit)
      pprTaskInit := some (onRest bodies.mergePprReset)
      pprCheckCorrectness := some (fun v st => do
        let (rest, passed) ← bodies.pprIsCorrect v st.2
        pure ((st.1, rest), passed))
      dataCommit := some (onRest bodies.mergePprCommit)
      taskGroupCommit :=
        some (onRest bodies.pprGroupCommit) },
    -- `postwait_port`
    { pprGroupInit := some (onRest bodies.postwaitInit)
      pprTaskInit := some (onRest bodies.postwaitPprReset)
      dataCommit := some (onRest bodies.postwaitPprCommit) },
    -- `bop_ordered_port`
    { pprTaskInit := some (onRest bodies.orderedPprReset) },
    -- `bop_io_port`
    { pprGroupInit := bopIoPort.pprGroupInit.map onIo
      taskGroupSuccFini :=
        bopIoPort.taskGroupSuccFini.map onIo
      undySuccFini := bopIoPort.undySuccFini.map onIo },
    -- `bop_alloc_port`
    { pprGroupInit := some (onRest bodies.beginspec)
      taskGroupCommit := some (onRest bodies.endspec)
      onMainComplete := some (onRest bodies.promoteList) } ]

------------------------------------------------------------
-- Regions of the Understudy
------------------------------------------------------------

/- A region: its identifier and what its code does. -/
structure CodeRegion (σ : Type) where
  id : Int
  body : IoState × σ → IoState × σ

/- The group keeps the partial size `psize`. -/
def aroundSize (psize : Nat) : Around where
  forked := .done
  partialSize := fun _ => psize

/- The understudy runs one region from begin to end. -/
def undyRegion
    (bodies : PortBodies σ)
    (psize : Nat)
    (p : Process (IoState × σ))
    (r : CodeRegion σ) :
    Outcome (Process (IoState × σ)) := do
  let ports := registeredPorts bodies
  let b ← p.pprBegin ports (aroundSize psize) r.id
  let p :=
    { b.caller with state := r.body b.caller.state }
  let e ← p.pprEnd ports (aroundSize psize) r.id
  Outcome.ofOption e.caller

def undyRegions
    (bodies : PortBodies σ)
    (psize : Nat)
    (p : Process (IoState × σ))
    (regions : List (CodeRegion σ)) :
    Outcome (Process (IoState × σ)) :=
  regions.foldlM (undyRegion bodies psize) p

/-
  The understudy has counted `k` regions: it goes on below
  the finish line, and is sequential and in a gap there.
-/
def CountsUpTo
    (v : Vars)
    (k psize : Nat) :
    Prop :=
  v.undyPprCount = k ∧
    if k < psize - 1 then v.taskStatus = .undy
    else v.taskStatus = .seq ∧ v.pprPos = .gap

/- A region with another number is not counted. -/
theorem undyRegion_ignored
    (bodies : PortBodies σ)
    (psize : Nat)
    {p : Process (IoState × σ)}
    {r : CodeRegion σ}
    (hUndy : p.vars.taskStatus = .undy)
    (hId : p.vars.pprStaticId ≠ r.id) :
    ∃ q, undyRegion bodies psize p r = .ret q ∧
      q.vars = { p.vars with
        pprPos := .ppr
        pprIndex := p.vars.pprIndex + 1 } := by
  unfold undyRegion Process.pprBegin Process.pprEnd
  simp only [Process.modify_vars, hUndy, pure,
    Outcome.ret_bind, hId, ne_eq, not_false_eq_true, or_true,
    if_true]
  exact ⟨_, rfl, rfl⟩

/- A region with MAIN's number is counted. -/
theorem undyRegion_counted
    (bodies : PortBodies σ)
    (psize : Nat)
    {p : Process (IoState × σ)}
    {r : CodeRegion σ}
    (hUndy : p.vars.taskStatus = .undy)
    (hId : p.vars.pprStaticId = r.id)
    (hBelow : p.vars.undyPprCount + 1 < (psize : Int) - 1) :
    ∃ q, undyRegion bodies psize p r = .ret q ∧
      q.vars = { p.vars with
        pprPos := .gap
        pprIndex := p.vars.pprIndex + 1
        undyPprCount := p.vars.undyPprCount + 1 } := by
  unfold undyRegion Process.pprBegin Process.pprEnd
    Process.postPprUndy
  simp only [Process.modify_vars, hUndy, pure,
    Outcome.ret_bind, hId, ne_eq, not_true_eq_false,
    reduceCtorEq, or_false, if_false, aroundSize, hBelow,
    if_true]
  exact ⟨_, rfl, rfl⟩

/- The region at the finish line. -/
theorem undyRegion_wins
    (bodies : PortBodies σ)
    (psize : Nat)
    {p : Process (IoState × σ)}
    {r : CodeRegion σ}
    (hUndy : p.vars.taskStatus = .undy)
    (hId : p.vars.pprStaticId = r.id)
    (hLine : (psize : Int) - 1 ≤ p.vars.undyPprCount + 1) :
    ∃ q, undyRegion bodies psize p r = .ret q ∧
      q.vars = { p.vars with
        taskStatus := .seq
        pprPos := .gap
        pprIndex := p.vars.pprIndex + 1
        undyPprCount := p.vars.undyPprCount + 1 } := by
  have hNot : ¬(p.vars.undyPprCount + 1 <
      (psize : Int) - 1) := by omega
  unfold undyRegion Process.pprBegin Process.pprEnd
    Process.postPprUndy
  simp only [Process.modify_vars, hUndy, pure,
    Outcome.ret_bind, hId, ne_eq, not_true_eq_false,
    reduceCtorEq, or_false, if_false, aroundSize, hNot]
  exact ⟨_, rfl, rfl⟩

------------------------------------------------------------
-- Sequences of Regions
------------------------------------------------------------

/- The regions that have MAIN's number. -/
def matching
    (id : Int)
    (regions : List (CodeRegion σ)) :
    Nat :=
  regions.countP (fun r => r.id = id)

/- Below the finish line the matching regions are counted. -/
theorem undyRegions_below
    (bodies : PortBodies σ)
    (psize : Nat)
    {p : Process (IoState × σ)}
    {regions : List (CodeRegion σ)}
    (hUndy : p.vars.taskStatus = .undy)
    (hBelow : p.vars.undyPprCount +
      matching p.vars.pprStaticId regions <
        (psize : Int) - 1) :
    ∃ q, undyRegions bodies psize p regions = .ret q ∧
      q.vars.taskStatus = .undy ∧
      q.vars.pprStaticId = p.vars.pprStaticId ∧
      q.vars.undyPprCount = p.vars.undyPprCount +
        matching p.vars.pprStaticId regions := by
  induction regions generalizing p with
  | nil => exact ⟨p, rfl, hUndy, rfl, by simp [matching]⟩
  | cons r rest ih =>
      unfold undyRegions
      rw [List.foldlM_cons]
      by_cases hId : p.vars.pprStaticId = r.id
      · have hCount : matching p.vars.pprStaticId
            (r :: rest) =
              matching p.vars.pprStaticId rest + 1 := by
          simp [matching, hId]
        rcases undyRegion_counted bodies psize (r := r) hUndy hId
            (by omega) with ⟨p1, hRegion, hVars⟩
        rcases ih (p := p1) (by rw [hVars]; exact hUndy)
            (by rw [hVars]; simp only; omega) with
          ⟨q, hRest, hStatus, hStatic, hTotal⟩
        rw [hVars] at hStatic hTotal
        refine ⟨q, ?_, hStatus, hStatic, ?_⟩
        · rw [hRegion]
          exact hRest
        · rw [hTotal, hCount]
          push_cast
          omega
      · have hCount : matching p.vars.pprStaticId
            (r :: rest) =
              matching p.vars.pprStaticId rest := by
          simp [matching, Ne.symm hId]
        rcases undyRegion_ignored bodies psize (r := r) hUndy
            hId with ⟨p1, hRegion, hVars⟩
        rcases ih (p := p1) (by rw [hVars]; exact hUndy)
            (by rw [hVars, ← hCount]; exact hBelow) with
          ⟨q, hRest, hStatus, hStatic, hTotal⟩
        rw [hVars] at hStatic hTotal
        refine ⟨q, ?_, hStatus, hStatic, ?_⟩
        · rw [hRegion]
          exact hRest
        · rw [hTotal, hCount]

theorem matching_eq_length_iff
    {id : Int}
    {regions : List (CodeRegion σ)} :
    matching id regions = regions.length ↔
      ∀ r ∈ regions, r.id = id := by
  unfold matching
  rw [List.countP_eq_length]
  simp only [decide_eq_true_eq]

/- The last of the matching regions is the finish line. -/
theorem undyRegions_wins
    (bodies : PortBodies σ)
    (psize : Nat)
    {p : Process (IoState × σ)}
    {init : List (CodeRegion σ)}
    {last : CodeRegion σ}
    (hUndy : p.vars.taskStatus = .undy)
    (hIds : ∀ r ∈ init ++ [last],
      r.id = p.vars.pprStaticId)
    (hLine : p.vars.undyPprCount + init.length + 1 =
      (psize : Int) - 1) :
    ∃ q, undyRegions bodies psize p (init ++ [last]) =
        .ret q ∧
      q.vars.taskStatus = .seq ∧ q.vars.pprPos = .gap ∧
      q.vars.undyPprCount =
        p.vars.undyPprCount + init.length + 1 := by
  have hInit : matching p.vars.pprStaticId init =
      init.length :=
    matching_eq_length_iff.mpr
      (fun r hr => hIds r (List.mem_append_left _ hr))
  rcases undyRegions_below bodies psize hUndy
      (by rw [hInit]; omega) with
    ⟨q1, hRun, hUndy1, hStatic, hTotal⟩
  rw [hInit] at hTotal
  rcases undyRegion_wins bodies psize hUndy1
      (by
        rw [hStatic]
        exact (hIds last (by simp)).symm)
      (by omega) with ⟨q, hRegion, hVars⟩
  refine ⟨q, ?_, by rw [hVars], by rw [hVars], ?_⟩
  · unfold undyRegions at hRun ⊢
    rw [List.foldlM_append, hRun]
    simp [hRegion]
  · rw [hVars]
    simp only
    omega

/-
  The understudy that MAIN forks counts each of the regions
  it completes, up to the finish line, exactly if they all
  have the number of MAIN's region.
-/
theorem undyRegions_count_iff
    (bodies : PortBodies σ)
    {psize : Nat}
    {around : Around}
    {id : Int}
    {p u : Process (IoState × σ)}
    {e : Ended (IoState × σ)}
    {regions : List (CodeRegion σ)}
    (hEnd : p.pprEnd (registeredPorts bodies) around id =
      .ret e)
    (hForked : e.understudy = some u)
    (hSize : 2 ≤ psize)
    (hLength : regions.length ≤ psize - 1) :
    (∃ q, undyRegions bodies psize u regions = .ret q ∧
      CountsUpTo q.vars regions.length psize) ↔
        ∀ r ∈ regions, r.id = p.vars.pprStaticId := by
  have hVars := Process.pprEnd_understudy hEnd hForked
  have hUndy : u.vars.taskStatus = .undy := by rw [hVars]
  have hStatic :
      u.vars.pprStaticId = p.vars.pprStaticId := by rw [hVars]
  have hZero : u.vars.undyPprCount = 0 := by rw [hVars]
  rw [← hStatic, ← matching_eq_length_iff]
  constructor
  · intro h
    rcases h with ⟨q, hRun, hCount, _⟩
    by_contra hOther
    -- one region too few is counted, so the line is not met
    have hLe : matching u.vars.pprStaticId regions ≤
        regions.length := List.countP_le_length
    have hBelow : u.vars.undyPprCount +
        matching u.vars.pprStaticId regions <
          (psize : Int) - 1 := by
      rw [hZero]
      omega
    rcases undyRegions_below bodies psize hUndy hBelow with
      ⟨q', hRun', _, _, hTotal⟩
    have hSame : q = q' :=
      Outcome.ret.inj (hRun.symm.trans hRun')
    subst hSame
    rw [hZero] at hTotal
    omega
  · intro hAll
    by_cases hLine : regions.length < psize - 1
    · rcases undyRegions_below bodies psize hUndy
          (by rw [hZero, hAll]; omega) with
        ⟨q, hRun, hStatus, _, hTotal⟩
      refine ⟨q, hRun, by omega, ?_⟩
      rw [if_pos hLine]
      exact hStatus
    · -- the last region is the one at the finish line
      rcases List.eq_nil_or_concat regions with
        rfl | ⟨init, last, rfl⟩
      · simp at hLine
        omega
      · rw [List.concat_eq_append] at hAll hLine hLength ⊢
        rw [List.length_append,
          List.length_singleton] at hLine hLength ⊢
        rcases undyRegions_wins bodies psize hUndy
            (matching_eq_length_iff.mp
              (hAll.trans (by simp))) (by omega) with
          ⟨q, hRun, hSeq, hGap, hTotal⟩
        refine ⟨q, hRun, ?_, ?_⟩
        · push_cast
          omega
        · rw [if_neg hLine]
          exact ⟨hSeq, hGap⟩

/- Callbacks that change nothing. -/
def idleBodies : PortBodies Unit :=
  let idle : Callback Unit := fun _ st => pure st
  { bopMergeInit := idle
    mergePprReset := idle
    pprIsCorrect := fun _ st => pure (st, true)
    mergePprCommit := idle
    pprGroupCommit := idle
    postwaitInit := idle
    postwaitPprReset := idle
    postwaitPprCommit := idle
    orderedPprReset := idle
    beginspec := idle
    endspec := idle
    promoteList := idle }

/- MAIN of a group of two inside region 1. -/
def mainInside : Process (IoState × Unit) where
  vars :=
    { freshVars with
      taskStatus := .main
      pprPos := .ppr
      pprIndex := 1
      pprStaticId := 1 }
  state := (firstIo, ())

/-
  After MAIN's region 1 the understudy completes region 2,
  and is still the understudy with nothing counted.
-/
theorem otherRegion_not_counted :
    ∃ e u, mainInside.pprEnd (registeredPorts idleBodies)
        aroundTwo 1 = .ret e ∧
      e.understudy = some u ∧
      (∃ q, undyRegions idleBodies 2 u [⟨2, id⟩] = .ret q ∧
        q.vars.taskStatus = .undy ∧
        q.vars.undyPprCount = 0) ∧
      ¬(∃ q, undyRegions idleBodies 2 u [⟨2, id⟩] = .ret q ∧
        CountsUpTo q.vars 1 2) := by
  refine ⟨_, _, rfl, rfl, ⟨_, rfl, rfl, rfl⟩, ?_⟩
  intro h
  rcases h with ⟨q, hRun, hCount, _⟩
  cases hRun
  exact absurd hCount (by decide)

/- Region 1 takes it over the finish line. -/
theorem undyRegions_count_iff_sameRegion :
    ∃ e u, mainInside.pprEnd (registeredPorts idleBodies)
        aroundTwo 1 = .ret e ∧
      e.understudy = some u ∧
      ∃ q, undyRegions idleBodies 2 u [⟨1, id⟩] = .ret q ∧
        CountsUpTo q.vars 1 2 := by
  have hEnd : ∃ e u, mainInside.pprEnd
      (registeredPorts idleBodies) aroundTwo 1 = .ret e ∧
        e.understudy = some u := ⟨_, _, rfl, rfl⟩
  rcases hEnd with ⟨e, u, hEnd, hForked⟩
  refine ⟨e, u, hEnd, hForked, ?_⟩
  exact (undyRegions_count_iff idleBodies hEnd hForked
    (by decide) (by decide)).mpr (by decide)

end Cbop
