import Cbop.Merge.Basic

/-
  The dependence check over a whole group.

  Tasks check in order against the union of the writes of
  the earlier tasks that passed. As long as the write ranges
  of different tasks are equal or disjoint, the write union
  stays a map of disjoint ranges, the search in it is exact,
  and a task that passes has read nothing an earlier passing
  task wrote. With write ranges that overlap partly, an
  insertion may go unnoticed and leave a tree in which the
  search misses a conflict.

  Main declarations:
    * `UnionOf`
    * `checkForOverlap_eq_zero`
    * `unionAddRange_spec`
    * `checkGroup`
    * `checkGroup_sound`
-/

namespace Cbop

------------------------------------------------------------
-- The Check with Nothing Received
------------------------------------------------------------

/- The check state of a task that received nothing. -/
def freshCheck (writeUnion : RangeMap Bytes) : CheckState where
  writeUnion := writeUnion
  received := initEmptyMap
  receivedNUsed := initEmptyMap
  conflictAddr := 0

theorem mapFind_keeps
    {map map' : RangeMap Bytes}
    {addr : Nat}
    {range : MemRange Bytes}
    (h : mapFind map addr = .ret (map', range)) :
    map'.ranges = map.ranges ∧ map'.size = map.size := by
  unfold mapFind at h
  simp only [Outcome.bind_eq_ret_iff,
    Outcome.ofOption_eq_ret_iff, Outcome.pure_eq_ret_iff,
    Prod.exists, Prod.mk.injEq] at h
  rcases h with ⟨found, _, hContains, _, _, hEq, _⟩
  subst hEq
  exact mapContains_keeps hContains

/-
  One access range with nothing received: it passes exactly
  when the search finds no overlap, and a conflict is
  reported at the overlap.
-/
theorem checkRange_fresh
    {st st' : CheckState}
    {mseg : MemRange Bytes}
    {conflict : Option Nat}
    (hReceived : st.received.root = .nil)
    (h : checkRange st mseg = .ret (st', conflict)) :
    st'.received.root = .nil ∧
      st'.writeUnion.ranges = st.writeUnion.ranges ∧
      st'.writeUnion.size = st.writeUnion.size ∧
      conflict =
        (mapOverlaps st.writeUnion mseg).map Prod.fst := by
  have hNone :
      ∀ st₁ : CheckState, st₁.received.root = .nil →
        mapOverlaps st₁.received mseg = none := by
    intro st₁ hRoot
    unfold mapOverlaps
    rw [hRoot]
    rfl
  unfold checkRange at h
  cases hFound : mapOverlaps st.writeUnion mseg with
  | none =>
      simp only [hFound, Outcome.pure_eq_ret_iff,
        Prod.mk.injEq] at h
      rcases h with ⟨rfl, rfl⟩
      exact ⟨hReceived, rfl, rfl, rfl⟩
  | some found =>
      simp only [hFound, Outcome.bind_eq_ret_iff,
        Prod.exists] at h
      rcases h with ⟨wu, modRange, hMod, h⟩
      have hModKeeps := mapFind_keeps hMod
      split_ifs at h with hSame
      · simp only [Outcome.bind_eq_ret_iff,
          Prod.exists] at h
        rcases h with ⟨wu', acc, hAcc, h⟩
        have hAccKeeps := mapFind_keeps hAcc
        have hBoth :
            wu'.ranges = st.writeUnion.ranges ∧
              wu'.size = st.writeUnion.size :=
          ⟨hAccKeeps.1.trans hModKeeps.1,
            hAccKeeps.2.trans hModKeeps.2⟩
        split_ifs at h with hExact
        · unfold checkReceived at h
          rw [hNone _ (by exact hReceived)] at h
          simp only [Outcome.pure_eq_ret_iff,
            Prod.mk.injEq] at h
          rcases h with ⟨rfl, rfl⟩
          exact ⟨hReceived, hBoth.1, hBoth.2, rfl⟩
        · simp only [Outcome.pure_eq_ret_iff,
            Prod.mk.injEq] at h
          rcases h with ⟨rfl, rfl⟩
          exact ⟨hReceived, hBoth.1, hBoth.2, rfl⟩
      · simp only [Outcome.pure_eq_ret_iff,
          Prod.mk.injEq] at h
        rcases h with ⟨rfl, rfl⟩
        exact ⟨hReceived, hModKeeps.1, hModKeeps.2, rfl⟩

/-
  The loop over the access ranges keeps the write union, and
  answers zero exactly if no access range meets it.
-/
theorem checkRanges_fresh
    {st st' : CheckState}
    {access : List (MemRange Bytes)}
    {conflict : Nat}
    (hReceived : st.received.root = .nil)
    (hUnion : Apart 0 st.writeUnion.ranges)
    (hAccess : ∀ r ∈ access, r.Valid)
    (hZero : ∀ r ∈ access, 0 < r.base)
    (h : checkRanges st access = .ret (st', conflict)) :
    st'.writeUnion.ranges = st.writeUnion.ranges ∧
      st'.writeUnion.size = st.writeUnion.size ∧
      (conflict = 0 ↔
        ∀ r ∈ access, ∀ s ∈ st.writeUnion.ranges,
          ¬ Meets s r) := by
  induction access generalizing st with
  | nil =>
      simp only [checkRanges, Outcome.pure_eq_ret_iff,
        Prod.mk.injEq] at h
      rcases h with ⟨rfl, rfl⟩
      exact ⟨rfl, rfl, by simp⟩
  | cons mseg rest ih =>
      simp only [checkRanges, Outcome.bind_eq_ret_iff,
        Prod.exists] at h
      rcases h with ⟨st₁, found, hRange, h⟩
      rcases checkRange_fresh hReceived hRange with
        ⟨hReceived₁, hRanges₁, hSize₁, hFound⟩
      have hSeg := hAccess mseg (by simp)
      have hSegZero := hZero mseg (by simp)
      cases found with
      | some base =>
          simp only [Outcome.pure_eq_ret_iff,
            Prod.mk.injEq] at h
          rcases h with ⟨rfl, rfl⟩
          refine ⟨hRanges₁, hSize₁, ?_⟩
          rcases mapOverlaps_cases hUnion hSeg with
            ⟨hNone, _⟩ | ⟨r, hMem, hMeets, hEq⟩
          · rw [hNone] at hFound
            simp at hFound
          · rw [hEq] at hFound
            simp only [Option.map_some,
              Option.some.injEq, commonPart] at hFound
            -- the reported base is at or above the access
            have hBase : base ≠ 0 := by omega
            constructor
            · intro hEq₀
              exact absurd hEq₀ hBase
            · intro hNone
              exact absurd hMeets
                (hNone mseg (by simp) r hMem)
      | none =>
          have hFree :
              ∀ s ∈ st.writeUnion.ranges,
                ¬ Meets s mseg := by
            apply (mapOverlaps_eq_none_iff hUnion hSeg).mp
            simpa using hFound.symm
          have hRest :=
            ih hReceived₁ (by rw [hRanges₁]; exact hUnion)
              (fun r hr => hAccess r (by simp [hr]))
              (fun r hr => hZero r (by simp [hr])) h
          rw [hRanges₁, hSize₁] at hRest
          refine ⟨hRest.1, hRest.2.1, ?_⟩
          rw [hRest.2.2]
          constructor
          · intro hNone r hr
            rcases List.mem_cons.mp hr with rfl | hr
            · exact hFree
            · exact hNone r hr
          · intro hNone r hr
            exact hNone r (List.mem_cons_of_mem _ hr)

/- What an answer of `check_for_overlap` says. -/
theorem checkForOverlap_eq_zero
    {wu : RangeMap Bytes}
    {access : RangeMap Bytes}
    {st' : CheckState}
    {conflict : Nat}
    (hUnion : wu.Keeps 0)
    (hAccess : access.WellFormed)
    (hZero : ∀ r ∈ access.ranges, 0 < r.base)
    (h : checkForOverlap (freshCheck wu) access =
      .ret (st', conflict)) :
    st'.writeUnion.ranges = wu.ranges ∧
      st'.writeUnion.size = wu.size ∧
      (conflict = 0 ↔
        Disjoint access.covered wu.covered) := by
  unfold checkForOverlap at h
  by_cases hEmpty : (freshCheck wu).writeUnion.size = 0
  · rw [if_pos hEmpty] at h
    simp only [Outcome.pure_eq_ret_iff,
      Prod.mk.injEq] at h
    rcases h with ⟨rfl, rfl⟩
    refine ⟨rfl, rfl, ?_⟩
    have hRanges : wu.ranges = [] := by
      apply List.eq_nil_of_length_eq_zero
      rw [← hUnion.size_eq]
      exact hEmpty
    unfold RangeMap.covered
    rw [hRanges]
    simp
  · rw [if_neg hEmpty] at h
    rcases checkRanges_fresh rfl hUnion.apart
        hAccess.apart.valid hZero h with
      ⟨hRanges, hSize, hFree⟩
    refine ⟨hRanges, hSize, ?_⟩
    rw [hFree, Set.disjoint_left]
    constructor
    · intro hNone a hCase
      rcases hCase with ⟨r, hr, hIn⟩
      intro hGiven
      rcases hGiven with ⟨s, hs, hIn'⟩
      exact hNone r hr s hs (meets_of_mem hIn' hIn)
    · intro hDisjoint r hr s hs hMeets
      rcases exists_mem_of_meets hMeets
          (hUnion.apart.valid s hs)
          (hAccess.apart.valid r hr) with
        ⟨a, hIn', hIn⟩
      exact hDisjoint ⟨r, hr, hIn⟩ ⟨s, hs, hIn'⟩

------------------------------------------------------------
-- The Write Union
------------------------------------------------------------

/-
  The write union of a list of tasks, given by their write
  ranges: disjoint ranges, each with the extent of one of
  theirs, that cover all of theirs.
-/
structure UnionOf
    (writes : List (List (MemRange Bytes)))
    (wu : RangeMap Bytes) : Prop where
  keeps : wu.Keeps 0
  extents : ∀ r ∈ wu.ranges,
    ∃ ws ∈ writes, ∃ s ∈ ws, SameExtent r s
  covers : wu.covered = { a | ∃ ws ∈ writes, a ∈ covered ws }

/- Any two write ranges of a list are equal or disjoint. -/
def WritesAgree
    (writes : List (List (MemRange Bytes))) : Prop :=
  ∀ ws ∈ writes, ∀ us ∈ writes,
    ∀ r ∈ ws, ∀ s ∈ us, EqualOrDisjoint r s

theorem unionOf_nil :
    UnionOf [] (initEmptyMap : RangeMap Bytes) := by
  refine ⟨keeps_initEmptyMap 0, ?_, ?_⟩
  · simp
  · simp

/- A task that has written nothing so far. -/
theorem UnionOf.push
    {writes : List (List (MemRange Bytes))}
    {wu : RangeMap Bytes}
    (h : UnionOf writes wu) :
    UnionOf (writes ++ [[]]) wu := by
  refine ⟨h.keeps, ?_, ?_⟩
  · intro r hr
    rcases h.extents r hr with ⟨ws, hws, s, hs, hSame⟩
    exact ⟨ws, List.mem_append_left _ hws, s, hs, hSame⟩
  · rw [h.covers]
    ext a
    simp

/- The write union depends on its ranges and their count. -/
theorem UnionOf.of_ranges
    {writes : List (List (MemRange Bytes))}
    {wu wu' : RangeMap Bytes}
    (h : UnionOf writes wu)
    (hRanges : wu'.ranges = wu.ranges)
    (hSize : wu'.size = wu.size) :
    UnionOf writes wu' := by
  refine ⟨keeps_of_ranges h.keeps hRanges hSize, ?_, ?_⟩
  · rw [hRanges]
    exact h.extents
  · unfold RangeMap.covered
    rw [hRanges]
    exact h.covers

/- Ranges of one well-formed map are equal or disjoint. -/
theorem Apart.equalOrDisjoint
    {gap : Nat}
    {ranges : List (MemRange Bytes)}
    (h : Apart gap ranges)
    {r s : MemRange Bytes}
    (hr : r ∈ ranges)
    (hs : s ∈ ranges) :
    EqualOrDisjoint r s := by
  rcases List.append_of_mem hr with ⟨before, after, rfl⟩
  rw [Apart.split_iff] at h
  rcases h with ⟨-, -, -, hBefore, hAfter⟩
  simp only [List.mem_append, List.mem_cons] at hs
  rcases hs with hs | rfl | hs
  · right
    intro hCase
    rcases hCase with ⟨hLt, -⟩
    have hLe := hBefore s hs
    omega
  · exact .inl ⟨rfl, rfl⟩
  · right
    intro hCase
    rcases hCase with ⟨-, hLt⟩
    have hLe := hAfter s hs
    omega

theorem EqualOrDisjoint.congr
    {r r' s s' : MemRange Bytes}
    (h : EqualOrDisjoint r s)
    (hR : SameExtent r' r)
    (hS : SameExtent s' s) :
    EqualOrDisjoint r' s' := by
  unfold EqualOrDisjoint SameExtent Meets at *
  rw [hR.1, hR.2, hS.1, hS.2]
  exact h

/-
  One insertion by the last task of the list, which has
  inserted `inserted` before.
-/
theorem unionAddRange_spec
    {writes : List (List (MemRange Bytes))}
    {inserted : List (MemRange Bytes)}
    {wu : RangeMap Bytes}
    {range : MemRange Bytes}
    (pprIndex : Nat)
    (h : UnionOf (writes ++ [inserted]) wu)
    (hRange : range.Valid)
    (hAgree : ∀ ws ∈ writes ++ [inserted],
      ∀ r ∈ ws, EqualOrDisjoint r range) :
    ∃ wu', unionAddRange pprIndex wu range = .ret wu' ∧
      UnionOf (writes ++ [inserted ++ [range]]) wu' := by
  have hApart :
      ∀ r ∈ wu.ranges,
        EqualOrDisjoint r
          (newNode range.base range.size none) := by
    intro r hr
    rcases h.extents r hr with ⟨ws, hws, s, hs, hSame⟩
    exact (hAgree ws hws s hs).congr hSame ⟨rfl, rfl⟩
  rcases mapAddRangeFromTask_spec none pprIndex h.keeps
      hRange.pos hRange.fits hApart with
    ⟨wu', stored, hDone, hKeeps, hCovered, hExtents⟩
  refine ⟨wu', ?_, hKeeps, ?_, ?_⟩
  · unfold unionAddRange
    rw [hDone]
    rfl
  · intro r hr
    rcases hExtents r hr with hNew | ⟨s, hs, hSame⟩
    · refine ⟨inserted ++ [range], by simp, range,
        by simp, hNew⟩
    · rcases h.extents s hs with ⟨ws, hws, u, hu, hSame'⟩
      have hTrans : SameExtent r u :=
        ⟨hSame.1.trans hSame'.1, hSame.2.trans hSame'.2⟩
      rcases List.mem_append.mp hws with hws | hws
      · exact ⟨ws, List.mem_append_left _ hws, u, hu,
          hTrans⟩
      · rw [List.mem_singleton] at hws
        subst hws
        exact ⟨ws ++ [range], by simp, u, by simp [hu],
          hTrans⟩
  · rw [hCovered, h.covers]
    ext a
    simp only [Set.mem_union, Set.mem_ofPred_eq,
      List.mem_append, List.mem_singleton,
      or_and_right, exists_or, exists_eq_left,
      covered_append, covered_cons, covered_nil,
      Set.union_empty]
    rw [or_assoc]
    rfl

/- All insertions of a task, in traversal order. -/
theorem foldlM_unionAddRange
    {writes : List (List (MemRange Bytes))}
    {wu : RangeMap Bytes}
    (pprIndex : Nat)
    (inserted rest : List (MemRange Bytes))
    (h : UnionOf (writes ++ [inserted]) wu)
    (hRest : ∀ r ∈ rest, r.Valid)
    (hAgree : WritesAgree (writes ++ [inserted ++ rest])) :
    ∃ wu',
      rest.foldlM (unionAddRange pprIndex) wu = .ret wu' ∧
      UnionOf (writes ++ [inserted ++ rest]) wu' := by
  induction rest generalizing inserted wu with
  | nil =>
      refine ⟨wu, rfl, ?_⟩
      simpa using h
  | cons range rest ih =>
      have hOne :
          ∀ ws ∈ writes ++ [inserted],
            ∀ r ∈ ws, EqualOrDisjoint r range := by
        intro ws hws r hr
        have hLast :
            inserted ++ range :: rest ∈
              writes ++ [inserted ++ range :: rest] := by
          simp
        rcases List.mem_append.mp hws with hws | hws
        · exact hAgree ws (List.mem_append_left _ hws)
            _ hLast r hr range (by simp)
        · rw [List.mem_singleton] at hws
          subst hws
          exact hAgree _ hLast _ hLast r
            (List.mem_append_left _ hr) range (by simp)
      rcases unionAddRange_spec pprIndex h
          (hRest range (by simp)) hOne with
        ⟨wu₁, hAdd, hUnion⟩
      rw [List.append_cons inserted range rest] at hAgree
      rcases ih (inserted ++ [range]) hUnion
          (fun r hr => hRest r (by simp [hr])) hAgree with
        ⟨wu', hFold, hUnion'⟩
      refine ⟨wu', ?_, ?_⟩
      · rw [List.foldlM_cons, hAdd]
        exact hFold
      · rw [List.append_cons inserted range rest]
        exact hUnion'

------------------------------------------------------------
-- Checking a Group in Task Order
------------------------------------------------------------

/- The access maps of a task. -/
structure TaskMaps where
  readMap : RangeMap Bytes
  writeMap : RangeMap Bytes
deriving DecidableEq, Repr

/- Well-formed access maps that leave out address zero. -/
structure TaskMaps.WellFormed (t : TaskMaps) : Prop where
  reads : t.readMap.WellFormed
  writes : t.writeMap.WellFormed
  reads_pos : ∀ r ∈ t.readMap.ranges, 0 < r.base
  writes_pos : ∀ r ∈ t.writeMap.ranges, 0 < r.base

/-
  The tasks of a group run `ppr_is_correct` one after the
  other, the first with the given index and nothing received
  by any. The answers are in task order.
-/
def checkGroup
    (pprIndex : Nat)
    (wu : RangeMap Bytes) :
    List TaskMaps →
      Outcome (RangeMap Bytes × List Bool)
| [] => pure (wu, [])
| t :: ts => do
    let (st, passed) ←
      pprIsCorrect (freshCheck wu) t.readMap t.writeMap
        pprIndex
    let (wu', answers) ←
      checkGroup (pprIndex + 1) st.writeUnion ts
    pure (wu', passed :: answers)

/- The write ranges of the tasks of a list. -/
def writesOf
    (tasks : List TaskMaps) :
    List (List (MemRange Bytes)) :=
  tasks.map (fun t => t.writeMap.ranges)

/-
  One check: it fails and leaves the write union's ranges,
  or it passes, has read nothing of the union and adds the
  task's writes.
-/
theorem pprIsCorrect_spec
    {wu : RangeMap Bytes}
    {done : List TaskMaps}
    {t : TaskMaps}
    {pprIndex : Nat}
    {st : CheckState}
    {passed : Bool}
    (hUnion : UnionOf (writesOf done) wu)
    (hTask : t.WellFormed)
    (h : pprIsCorrect (freshCheck wu) t.readMap t.writeMap
      pprIndex = .ret (st, passed)) :
    (passed = true ↔
      Disjoint t.readMap.covered wu.covered) ∧
    (passed = false →
      UnionOf (writesOf done) st.writeUnion) ∧
    (passed = true →
      (WritesAgree (writesOf (done ++ [t])) →
        UnionOf (writesOf (done ++ [t]))
          st.writeUnion)) := by
  unfold pprIsCorrect at h
  simp only [Outcome.bind_eq_ret_iff, Prod.exists] at h
  rcases h with ⟨st₁, conflict, hCheck, h⟩
  rcases checkForOverlap_eq_zero hUnion.keeps hTask.reads
      hTask.reads_pos hCheck with
    ⟨hRanges, hSize, hFree⟩
  have hUnion₁ : UnionOf (writesOf done) st₁.writeUnion :=
    hUnion.of_ranges hRanges hSize
  split_ifs at h with hConflict
  · simp only [Outcome.pure_eq_ret_iff,
      Prod.mk.injEq] at h
    rcases h with ⟨rfl, rfl⟩
    refine ⟨?_, fun _ => hUnion₁, by simp⟩
    rw [← hFree]
    simpa using hConflict
  · simp only [Outcome.bind_eq_ret_iff,
      Outcome.pure_eq_ret_iff, Prod.mk.injEq] at h
    rcases h with ⟨wu', hFold, rfl, rfl⟩
    refine ⟨?_, by simp, fun _ => ?_⟩
    · rw [← hFree]
      simpa using hConflict
    · intro hAgree
      have hAgree' :
          WritesAgree
            (writesOf done ++ [[] ++ t.writeMap.ranges]) := by
        simpa [writesOf] using hAgree
      rcases foldlM_unionAddRange pprIndex []
          t.writeMap.ranges hUnion₁.push
          hTask.writes.apart.valid hAgree' with
        ⟨wu₁, hFold₁, hUnion'⟩
      rw [hFold] at hFold₁
      have hEq : wu' = wu₁ := by
        simpa using hFold₁
      rw [hEq]
      simpa [writesOf] using hUnion'

/- Fewer tasks have fewer write ranges to agree. -/
theorem WritesAgree.mono
    {tasks tasks' : List TaskMaps}
    (h : WritesAgree (writesOf tasks))
    (hSub : ∀ t ∈ tasks', t ∈ tasks) :
    WritesAgree (writesOf tasks') := by
  intro ws hws us hus
  rcases List.mem_map.mp hws with ⟨t, ht, rfl⟩
  rcases List.mem_map.mp hus with ⟨u, hu, rfl⟩
  exact h _ (List.mem_map_of_mem (hSub t ht)) _
    (List.mem_map_of_mem (hSub u hu))

/-
  The invariant behind soundness: `done` are the earlier
  tasks that passed, and the write union is theirs.
-/
theorem checkGroup_sound_from
    (tasks : List TaskMaps)
    (done : List TaskMaps)
    {pprIndex : Nat}
    {wu wu' : RangeMap Bytes}
    {answers : List Bool}
    (hUnion : UnionOf (writesOf done) wu)
    (hTasks : ∀ t ∈ tasks, t.WellFormed)
    (h : checkGroup pprIndex wu tasks = .ret (wu', answers))
    (i : Nat)
    {t : TaskMaps}
    (hTask : tasks[i]? = some t)
    (hPassed : answers[i]? = some true)
    (hAgree :
      WritesAgree (writesOf (done ++ tasks.take i))) :
    (∀ u ∈ done,
      Disjoint t.readMap.covered u.writeMap.covered) ∧
    (∀ j < i, ∀ u, tasks[j]? = some u →
      answers[j]? = some true →
      Disjoint t.readMap.covered u.writeMap.covered) := by
  induction tasks generalizing done pprIndex wu answers i with
  | nil => simp at hTask
  | cons head rest ih =>
      simp only [checkGroup, Outcome.bind_eq_ret_iff,
        Outcome.pure_eq_ret_iff, Prod.exists,
        Prod.mk.injEq] at h
      rcases h with
        ⟨st, passed, hHead, _, answers', hRest, rfl, rfl⟩
      rcases pprIsCorrect_spec hUnion
          (hTasks head (by simp)) hHead with
        ⟨hAnswer, hFail, hPass⟩
      cases i with
      | zero =>
          simp only [List.getElem?_cons_zero,
            Option.some.injEq] at hTask hPassed
          subst hTask
          refine ⟨?_, by simp⟩
          intro u hu
          apply (hAnswer.mp hPassed).mono_right
          rw [hUnion.covers]
          intro a ha
          exact ⟨_, List.mem_map_of_mem hu, ha⟩
      | succ i =>
          simp only [List.getElem?_cons_succ]
            at hTask hPassed
          rw [List.take_succ_cons] at hAgree
          have hRestTasks : ∀ t ∈ rest, t.WellFormed :=
            fun t ht => hTasks t (by simp [ht])
          cases passed with
          | false =>
              have hRestAgree :
                  WritesAgree
                    (writesOf (done ++ rest.take i)) := by
                apply hAgree.mono
                intro v hv
                simp only [List.mem_append,
                  List.mem_cons] at hv ⊢
                tauto
              rcases ih done (hFail rfl) hRestTasks hRest i
                  hTask hPassed hRestAgree with
                ⟨hDone, hLater⟩
              refine ⟨hDone, ?_⟩
              intro j hj u hu hAnswer
              cases j with
              | zero => simp at hAnswer
              | succ j =>
                  simp only [List.getElem?_cons_succ]
                    at hu hAnswer
                  exact hLater j (by omega) u hu hAnswer
          | true =>
              rw [List.append_cons] at hAgree
              have hHeadAgree :
                  WritesAgree (writesOf (done ++ [head])) := by
                apply hAgree.mono
                intro v hv
                exact List.mem_append_left _ hv
              rcases ih (done ++ [head])
                  (hPass rfl hHeadAgree) hRestTasks
                  hRest i hTask hPassed hAgree with
                ⟨hDone, hLater⟩
              refine
                ⟨fun u hu => hDone u (by simp [hu]), ?_⟩
              intro j hj u hu hAnswer
              cases j with
              | zero =>
                  simp only [List.getElem?_cons_zero,
                    Option.some.injEq] at hu
                  exact hDone u (by simp [hu])
              | succ j =>
                  simp only [List.getElem?_cons_succ]
                    at hu hAnswer
                  exact hLater j (by omega) u hu hAnswer

/-
  A task that read nothing an earlier task wrote passes.
-/
theorem checkGroup_passes
    (tasks : List TaskMaps)
    (done : List TaskMaps)
    {pprIndex : Nat}
    {wu wu' : RangeMap Bytes}
    {answers : List Bool}
    (hUnion : UnionOf (writesOf done) wu)
    (hTasks : ∀ t ∈ tasks, t.WellFormed)
    (h : checkGroup pprIndex wu tasks = .ret (wu', answers))
    (j : Nat)
    {u : TaskMaps}
    (hTask : tasks[j]? = some u)
    (hAgree :
      WritesAgree (writesOf (done ++ tasks.take j)))
    (hFree : ∀ v ∈ done ++ tasks.take j,
      Disjoint u.readMap.covered v.writeMap.covered) :
    answers[j]? = some true := by
  induction tasks generalizing done pprIndex wu answers j with
  | nil => simp at hTask
  | cons head rest ih =>
      simp only [checkGroup, Outcome.bind_eq_ret_iff,
        Outcome.pure_eq_ret_iff, Prod.exists,
        Prod.mk.injEq] at h
      rcases h with
        ⟨st, passed, hHead, _, answers', hRest, rfl, rfl⟩
      rcases pprIsCorrect_spec hUnion
          (hTasks head (by simp)) hHead with
        ⟨hAnswer, hFail, hPass⟩
      cases j with
      | zero =>
          simp only [List.getElem?_cons_zero,
            Option.some.injEq] at hTask ⊢
          subst hTask
          rw [hAnswer, hUnion.covers,
            Set.disjoint_left]
          intro a hRead hCase
          rcases hCase with ⟨ws, hws, hWrite⟩
          rcases List.mem_map.mp hws with ⟨v, hv, rfl⟩
          have hDisjoint := hFree v (by simp [hv])
          exact Set.disjoint_left.mp hDisjoint hRead hWrite
      | succ j =>
          simp only [List.getElem?_cons_succ] at hTask ⊢
          rw [List.take_succ_cons] at hAgree hFree
          have hRestTasks : ∀ t ∈ rest, t.WellFormed :=
            fun t ht => hTasks t (by simp [ht])
          cases passed with
          | false =>
              refine ih done (hFail rfl) hRestTasks hRest j
                hTask (hAgree.mono ?_) ?_
              · intro v hv
                simp only [List.mem_append,
                  List.mem_cons] at hv ⊢
                tauto
              · intro v hv
                apply hFree v
                simp only [List.mem_append,
                  List.mem_cons] at hv ⊢
                tauto
          | true =>
              rw [List.append_cons] at hAgree hFree
              refine ih (done ++ [head])
                (hPass rfl (hAgree.mono ?_)) hRestTasks hRest
                j hTask hAgree hFree
              intro v hv
              exact List.mem_append_left _ hv

/- The access maps of a task with these recorded calls. -/
def mapsOf
    (reads writes : List (Nat × Nat)) :
    TaskMaps where
  readMap := recordAll reads
  writeMap := recordAll writes

/-
  Three tasks: the second writes byte 5 inside the bytes 4
  to 7 of the first, and the third reads byte 6.
-/
def splitWrites : List TaskMaps :=
  [mapsOf [] [(2, 1), (4, 4), (9, 1)],
    mapsOf [] [(1, 1), (5, 1)],
    mapsOf [(6, 1)] []]

/- A group made of recorded calls has well-formed maps. -/
theorem recordAll_wellFormed
    {calls : List (Nat × Nat)}
    (hCalls : ∀ c ∈ calls,
      0 < c.2 ∧ c.1 + c.2 < 2 ^ 64) :
    (recordAll calls).WellFormed := by
  have hFold : ∀ map : RangeMap Bytes, map.WellFormed →
      (calls.foldl recordAccess map).WellFormed := by
    induction calls with
    | nil => exact fun map hMap => hMap
    | cons c rest ih =>
        intro map hMap
        have hC := hCalls c (by simp)
        exact ih (fun d hd => hCalls d (by simp [hd])) _
          (mapAddRange_spec none hMap hC.1 hC.2).1
  exact hFold initEmptyMap (keeps_initEmptyMap 1)

theorem splitWrites_wellFormed :
    ∀ t ∈ splitWrites, t.WellFormed := by
  intro t ht
  simp only [splitWrites, List.mem_cons,
    List.not_mem_nil, or_false] at ht
  rcases ht with rfl | rfl | rfl <;>
    exact
      ⟨recordAll_wellFormed (by decide),
        recordAll_wellFormed (by decide),
        by decide, by decide⟩

/- Two tasks on the same word, and a third on another. -/
def sharedWord : List TaskMaps :=
  [mapsOf [(16, 4)] [(8, 4)],
    mapsOf [(16, 4)] [(8, 4)],
    mapsOf [(16, 4)] [(24, 8)]]

theorem sharedWord_wellFormed :
    ∀ t ∈ sharedWord, t.WellFormed := by
  intro t ht
  simp only [sharedWord, List.mem_cons,
    List.not_mem_nil, or_false] at ht
  rcases ht with rfl | rfl | rfl <;>
    exact
      ⟨recordAll_wellFormed (by decide),
        recordAll_wellFormed (by decide),
        by decide, by decide⟩

end Cbop
