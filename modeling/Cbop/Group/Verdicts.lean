import Cbop.Group.Commit
import Cbop.Ppr.PrefixCommit

/-
  The verdicts of the checks, in every run of a group.

  Tasks may fail, abort and die at any point. The write union
  still holds exactly what the checks have inserted, and a
  check finds a conflict exactly if the task reads a byte
  that an earlier task writes whose own check passed.

  Main declarations:
    * `MergeGroup.ClearOf`
    * `clearOf_of_check`
    * `VerdictInv`, `verdictInv_of_reachable`
    * `checks_exact`
-/

namespace Cbop

------------------------------------------------------------
-- Passed and Ended Checks
------------------------------------------------------------

section Log

variable {ρ : Type}
variable {log : List (Event ρ)}
variable {k : Nat}

theorem passed_iff :
    passed log k = true ↔ Event.checkEnded k true ∈ log := by
  unfold passed
  rw [List.any_eq_true]
  constructor
  · intro h
    rcases h with ⟨e, he, hIs⟩
    cases e with
    | checkEnded j result =>
        cases result <;> simp_all
    | _ => simp at hIs
  · intro h
    exact ⟨_, h, by simp⟩

theorem ended_iff :
    ended log k = true ↔
      ∃ result, Event.checkEnded k result ∈ log := by
  unfold ended
  rw [List.any_eq_true]
  constructor
  · intro h
    rcases h with ⟨e, he, hIs⟩
    cases e with
    | checkEnded j result =>
        simp only [decide_eq_true_eq] at hIs
        exact ⟨result, hIs ▸ he⟩
    | _ => simp at hIs
  · intro h
    rcases h with ⟨result, hMem⟩
    exact ⟨_, hMem, by simp⟩

end Log

/- The bytes the passed checks below `m` have inserted. -/
theorem mem_covered_passedWrites
    {cfg : Group (MemRange Bytes)}
    {log : List (Event (MemRange Bytes))}
    {m a : Nat} :
    a ∈ covered (passedWrites cfg log m) ↔
      ∃ j, j < m ∧ Event.checkEnded j true ∈ log ∧
        a ∈ covered (cfg.writes j) := by
  simp only [mem_covered, passedWrites, List.mem_flatMap,
    List.mem_range]
  constructor
  · intro h
    rcases h with ⟨r, ⟨j, hj, hr⟩, ha⟩
    split at hr
    · rename_i hPassed
      exact ⟨j, hj, passed_iff.mp hPassed, r, hr, ha⟩
    · cases hr
  · intro h
    rcases h with ⟨j, hj, hPassed, r, hr, ha⟩
    exact ⟨r, ⟨j, hj,
      by rw [if_pos (passed_iff.mpr hPassed)]; exact hr⟩, ha⟩

------------------------------------------------------------
-- The Answer of a Check
------------------------------------------------------------

/-
  The task reads nothing that an earlier task writes whose
  check has passed.
-/
def MergeGroup.ClearOf
    (g : MergeGroup)
    (log : List (Event (MemRange Bytes)))
    (k : Nat) : Prop :=
  ∀ j, j < k → Event.checkEnded j true ∈ log →
    Disjoint
      (callBytes ((g.region k).readCalls g.memory))
      (callBytes ((g.region j).writeCalls g.memory))

section Checks

variable {g : MergeGroup}
variable {s s' : State (MemRange Bytes)}
variable {d d' : MergeData}
variable {k : Nat}

/- What the check of task `k` answers, and what it leaves. -/
theorem clearOf_of_check
    {b : Baton}
    {st : CheckState}
    {conflict : Nat}
    (hRecords : g.Records)
    (hUnion : UnionOf [insertions s.log] d.writeUnion)
    (hCheck : CheckInv g.protocolGroup s.relay b)
    (hk : k < g.size)
    (hPc : s.pc k = .checking)
    (hAnswer : checkForOverlap (freshCheck d.writeUnion)
      (g.readMap k) = .ret (st, conflict)) :
    (conflict = 0 ↔ g.ClearOf s.log k) ∧
      UnionOf [insertions s.log] st.writeUnion := by
  rcases hRecords.readMap_spec hk with
    ⟨hWell, hReads, hPos⟩
  rcases checkForOverlap_eq_zero hUnion.keeps hWell hPos
      hAnswer with
    ⟨hRanges, hSize, hFree⟩
  refine ⟨?_, hUnion.of_ranges hRanges hSize⟩
  have hPhase : s.relay.phases k = .checking := by
    simp [State.relay, hPc, phase]
  have hB : b = .busy k :=
    hCheck.busy k (by rw [hPhase]; rfl)
  subst hB
  have hIns :
      insertions s.log =
        passedWrites g.protocolGroup s.log k := by
    have hAt := hCheck.inserted
    simp only [InsertionsAt, hPhase] at hAt
    exact hAt.1
  have hCovers :
      ∀ a, a ∈ d.writeUnion.covered ↔
        ∃ j, j < k ∧ Event.checkEnded j true ∈ s.log ∧
          a ∈ callBytes
            ((g.region j).writeCalls g.memory) := by
    intro a
    have hUnionEq :
        a ∈ d.writeUnion.covered ↔
          a ∈ covered (insertions s.log) := by
      rw [hUnion.covers]
      simp
    rw [hUnionEq, hIns, mem_covered_passedWrites]
    constructor
    · intro h
      rcases h with ⟨j, hj, hPassed, ha⟩
      refine ⟨j, hj, hPassed, ?_⟩
      rw [← (hRecords.writeMap_spec
        (Nat.lt_trans hj hk)).2.1]
      exact ha
    · intro h
      rcases h with ⟨j, hj, hPassed, ha⟩
      refine ⟨j, hj, hPassed, ?_⟩
      rw [← (hRecords.writeMap_spec
        (Nat.lt_trans hj hk)).2.1] at ha
      exact ha
  rw [hFree, hReads, Set.disjoint_left]
  constructor
  · intro h j hj hPassed
    rw [Set.disjoint_left]
    intro a hRead hWrite
    exact h hRead ((hCovers a).mpr ⟨j, hj, hPassed, hWrite⟩)
  · intro h a hRead hWrite
    rcases (hCovers a).mp hWrite with
      ⟨j, hj, hPassed, hByte⟩
    exact Set.disjoint_left.mp (h j hj hPassed) hRead hByte

/- An insertion of a range of one of the tasks. -/
theorem unionOf_snoc
    {done : List (MemRange Bytes)}
    {range : MemRange Bytes}
    {wu wu' : RangeMap Bytes}
    (hRecords : g.Records)
    (hMatch : g.WritesMatch)
    (hUnion : UnionOf [done] wu)
    (hOf : ∀ q ∈ done ++ [range],
      ∃ j, j < g.size ∧ q ∈ (g.writeMap j).ranges)
    (hAdd : unionAddRange (g.pprIndex + k) wu range =
      .ret wu') :
    UnionOf [done ++ [range]] wu' := by
  rcases hOf range (by simp) with ⟨j, hj, hRange⟩
  have hValid : range.Valid :=
    (hRecords.writeMap_spec hj).1.apart.valid range hRange
  have hAgree :
      ∀ ws ∈ [] ++ [done], ∀ q ∈ ws,
        EqualOrDisjoint q range := by
    intro ws hws q hq
    have hEq : ws = done := by
      simpa using hws
    subst hEq
    rcases hOf q (List.mem_append_left _ hq) with
      ⟨i, hi, hMem⟩
    exact hMatch.agree hRecords hi hj hMem hRange
  rcases unionAddRange_spec (g.pprIndex + k)
      (show UnionOf ([] ++ [done]) wu from hUnion) hValid
      hAgree with
    ⟨wu₁, hRet, hNew⟩
  rw [hAdd] at hRet
  have hEq : wu' = wu₁ := by
    simpa using hRet
  rw [hEq]
  exact hNew

/- A range about to be inserted is one of the tasks'. -/
theorem inserted_of_tasks
    {b : Baton}
    {range : MemRange Bytes}
    {rest : List (MemRange Bytes)}
    (hCheck : CheckInv g.protocolGroup s.relay b)
    (hk : k < g.size)
    (hPc : s.pc k = .inserting (range :: rest)) :
    ∀ q ∈ insertions s.log ++ [range],
      ∃ j, j < g.size ∧ q ∈ (g.writeMap j).ranges := by
  have hPhase :
      s.relay.phases k = .inserting (range :: rest) := by
    simp [State.relay, hPc, phase]
  have hB : b = .busy k :=
    hCheck.busy k (by rw [hPhase]; rfl)
  subst hB
  have hIns := hCheck.inserted
  simp only [InsertionsAt, hPhase] at hIns
  have hList :
      insertions s.log ++ (range :: rest) =
        passedWrites g.protocolGroup s.log k ++
          (g.writeMap k).ranges := hIns.1
  intro q hq
  have hMem : q ∈ insertions s.log ++ (range :: rest) := by
    simp only [List.mem_append, List.mem_cons] at hq ⊢
    tauto
  rw [hList, List.mem_append] at hMem
  rcases hMem with hOld | hOwn
  · rcases mem_passedWrites hOld with ⟨j, hj, hWrites⟩
    exact ⟨j, Nat.lt_trans hj hk, hWrites⟩
  · exact ⟨k, hk, hOwn⟩

------------------------------------------------------------
-- The Invariant
------------------------------------------------------------

/- The check of the task found no conflict. -/
def admitted {ρ : Type} : Pc ρ → Bool
| .inserting _ => true
| .setSize _ next => admitted next
| .setAcquire _ next => admitted next
| .setWrite _ next => admitted next
| .setRelease next => admitted next
| _ => false

theorem busy_of_admitted
    {ρ : Type}
    {pc : Pc ρ}
    (h : admitted pc = true) :
    (phase pc).busy = true := by
  induction pc <;> simp_all [admitted, phase, Phase.busy]

/- The write union, and what the verdicts say. -/
structure VerdictInv
    (g : MergeGroup)
    (s : State (MemRange Bytes))
    (d : MergeData) : Prop where
  union : UnionOf [insertions s.log] d.writeUnion
  admitted : ∀ k, Cbop.admitted (s.pc k) = true →
    g.ClearOf s.log k
  clear : ∀ k, Event.checkEnded k true ∈ s.log →
    g.ClearOf s.log k
  conflict : ∀ k, Event.checkEnded k false ∈ s.log →
    ¬g.ClearOf s.log k
  started : ∀ k result, Event.checkEnded k result ∈ s.log →
    k ∈ starts s.log

/- Steps in which no check ends. -/
theorem verdictInv_keep
    {events : List (Event (MemRange Bytes))}
    (hInv : VerdictInv g s d)
    (hUnion : UnionOf [insertions s'.log] d'.writeUnion)
    (hLog : s'.log = s.log ++ events)
    (hEvents : ∀ k result,
      Event.checkEnded k result ∉ events)
    (hAdmitted : ∀ k, admitted (s'.pc k) = true →
      g.ClearOf s.log k) :
    VerdictInv g s' d' := by
  have hMem :
      ∀ j result, Event.checkEnded j result ∈ s'.log ↔
        Event.checkEnded j result ∈ s.log := by
    intro j result
    rw [hLog, List.mem_append]
    exact or_iff_left (hEvents j result)
  have hClear :
      ∀ j, g.ClearOf s'.log j ↔ g.ClearOf s.log j := by
    intro j
    simp only [MergeGroup.ClearOf, hMem]
  refine ⟨hUnion, ?_, ?_, ?_, ?_⟩
  · intro j hj
    exact (hClear j).mpr (hAdmitted j hj)
  · intro j hj
    rw [hMem] at hj
    exact (hClear j).mpr (hInv.clear j hj)
  · intro j hj
    rw [hMem] at hj
    rw [hClear]
    exact hInv.conflict j hj
  · intro j result hj
    rw [hMem] at hj
    rw [hLog, starts_append]
    exact List.mem_append_left _ (hInv.started j result hj)

/- The check of task `k` ends. -/
theorem verdictInv_ended
    {b : Baton}
    {result : Bool}
    {pc : Pc (MemRange Bytes)}
    (hInv : VerdictInv g s d)
    (hCheck : CheckInv g.protocolGroup s.relay b)
    (hBusy : (phase (s.pc k)).busy = true)
    (hUnion : UnionOf [insertions s.log] d'.writeUnion)
    (hMoves : MovesTo s s' k pc [.checkEnded k result])
    (hPc : admitted pc = false)
    (hVerdict : result = true ↔ g.ClearOf s.log k) :
    VerdictInv g s' d' := by
  have hB : b = .busy k := hCheck.busy k hBusy
  subst hB
  have hLog : s'.log = s.log ++ [.checkEnded k result] :=
    hMoves.log
  have hStarts : starts s.log = List.range (k + 1) :=
    hCheck.starts_eq
  have hMem :
      ∀ j verdict, Event.checkEnded j verdict ∈ s'.log ↔
        Event.checkEnded j verdict ∈ s.log ∨
          (j = k ∧ verdict = result) := by
    intro j verdict
    simp [hLog]
  -- no task after `k` has started its check
  have hClear :
      ∀ j, j ≤ k →
        (g.ClearOf s'.log j ↔ g.ClearOf s.log j) := by
    intro j hj
    constructor
    · intro h i hi hPassed
      exact h i hi ((hMem i true).mpr (.inl hPassed))
    · intro h i hi hPassed
      rcases (hMem i true).mp hPassed with hOld | ⟨rfl, _⟩
      · exact h i hi hOld
      · omega
  have hLate :
      ∀ j verdict, Event.checkEnded j verdict ∈ s.log →
        j ≤ k := by
    intro j verdict hj
    have hIn := hInv.started j verdict hj
    rw [hStarts, List.mem_range] at hIn
    omega
  refine ⟨?_, ?_, ?_, ?_, ?_⟩
  · rw [hLog, insertions_append]
    simpa [insertions] using hUnion
  · intro j hj
    by_cases hSelf : j = k
    · rw [hSelf, hMoves.self, hPc] at hj
      cases hj
    · rw [hMoves.other admitted rfl j hSelf] at hj
      have hOther := hCheck.busy j (busy_of_admitted hj)
      rw [Baton.busy.injEq] at hOther
      exact absurd hOther.symm hSelf
  · intro j hj
    rcases (hMem j true).mp hj with hOld | ⟨rfl, hTrue⟩
    · exact (hClear j (hLate j true hOld)).mpr
        (hInv.clear j hOld)
    · exact (hClear j (Nat.le_refl j)).mpr
        (hVerdict.mp hTrue.symm)
  · intro j hj
    rcases (hMem j false).mp hj with hOld | ⟨rfl, hFalse⟩
    · rw [hClear j (hLate j false hOld)]
      exact hInv.conflict j hOld
    · rw [hClear j (Nat.le_refl j), ← hVerdict, ← hFalse]
      simp
  · intro j verdict hj
    rw [hLog, starts_append]
    apply List.mem_append_left
    rcases (hMem j verdict).mp hj with hOld | ⟨rfl, _⟩
    · exact hInv.started j verdict hOld
    · rw [hStarts]
      simp

------------------------------------------------------------
-- Steps
------------------------------------------------------------

/- The move takes no part in a check's answer. -/
theorem TaskMove.offVerdict
    {ρ : Type}
    {cfg : Group ρ}
    {k psize : Nat}
    {pc : Pc ρ}
    {act : Act}
    {move : Move ρ}
    (h : TaskMove cfg k psize pc act move)
    (hFail : act ≠ .fail)
    (hPc : act = .go → pc ≠ .checking ∧
      ∀ rest, pc ≠ .inserting rest) :
    insertions move.2.2 = [] ∧
      (∀ j result, Event.checkEnded j result ∉ move.2.2) ∧
      (Cbop.admitted move.1 = true →
        Cbop.admitted pc = true) := by
  cases h <;> simp_all [insertions, Cbop.admitted]

/- A move outside of the checks. -/
theorem verdictInv_off
    {pc : Pc (MemRange Bytes)}
    {events : List (Event (MemRange Bytes))}
    (hInv : VerdictInv g s d)
    (hMoves : MovesTo s s' k pc events)
    (hSame : d'.writeUnion = d.writeUnion)
    (hIns : insertions events = [])
    (hEvents : ∀ j result,
      Event.checkEnded j result ∉ events)
    (hAdmitted : admitted pc = true →
      admitted (s.pc k) = true) :
    VerdictInv g s' d' := by
  refine verdictInv_keep hInv ?_ hMoves.log hEvents ?_
  · rw [hSame, hMoves.log, insertions_append, hIns,
      List.append_nil]
    exact hInv.union
  · intro j hj
    by_cases hSelf : j = k
    · rw [hSelf, hMoves.self] at hj
      rw [hSelf]
      exact hInv.admitted k (hAdmitted hj)
    · rw [hMoves.other admitted rfl j hSelf] at hj
      exact hInv.admitted j hj

/- The check of task `k` finds no conflict. -/
theorem verdictInv_checking
    {b : Baton}
    {st : CheckState}
    {ranges : List (MemRange Bytes)}
    (hRecords : g.Records)
    (hInv : VerdictInv g s d)
    (hCheck : CheckInv g.protocolGroup s.relay b)
    (hk : k < g.size)
    (hPc : s.pc k = .checking)
    (hAnswer : checkForOverlap (freshCheck d.writeUnion)
      (g.readMap k) = .ret (st, 0))
    (hMoves : MovesTo s s' k (.inserting ranges) []) :
    VerdictInv g s' { d with
      writeUnion := st.writeUnion } := by
  rcases clearOf_of_check hRecords hInv.union hCheck hk hPc
      hAnswer with
    ⟨hVerdict, hUnion⟩
  refine verdictInv_keep hInv ?_ hMoves.log (by simp) ?_
  · rw [hMoves.log, List.append_nil]
    exact hUnion
  · intro j hj
    by_cases hSelf : j = k
    · rw [hSelf]
      exact hVerdict.mp rfl
    · rw [hMoves.other Cbop.admitted rfl j hSelf] at hj
      exact hInv.admitted j hj

/- Task `k` inserts one of its ranges. -/
theorem verdictInv_insert
    {b : Baton}
    {range : MemRange Bytes}
    {rest : List (MemRange Bytes)}
    {wu : RangeMap Bytes}
    (hRecords : g.Records)
    (hMatch : g.WritesMatch)
    (hInv : VerdictInv g s d)
    (hCheck : CheckInv g.protocolGroup s.relay b)
    (hk : k < g.size)
    (hPc : s.pc k = .inserting (range :: rest))
    (hAdd : unionAddRange (g.pprIndex + k) d.writeUnion
      range = .ret wu)
    (hMoves : MovesTo s s' k (.inserting rest)
      [.inserted k range]) :
    VerdictInv g s' { d with writeUnion := wu } := by
  refine verdictInv_keep hInv ?_ hMoves.log (by simp) ?_
  · rw [hMoves.log, insertions_append]
    exact unionOf_snoc hRecords hMatch hInv.union
      (inserted_of_tasks hCheck hk hPc) hAdd
  · intro j hj
    by_cases hSelf : j = k
    · rw [hSelf]
      exact hInv.admitted k (by rw [hPc]; rfl)
    · rw [hMoves.other Cbop.admitted rfl j hSelf] at hj
      exact hInv.admitted j hj

/- The move of a task, and what it does to the union. -/
theorem verdictInv_go
    {b : Baton}
    {move : Move (MemRange Bytes)}
    (hRecords : g.Records)
    (hMatch : g.WritesMatch)
    (hInv : VerdictInv g s d)
    (hCheck : CheckInv g.protocolGroup s.relay b)
    (hk : k < g.size)
    (hMove : TaskMove g.protocolGroup k s.partialSize
      (s.pc k) .go move)
    (hMerge : MergeMove g k d (s.pc k) d')
    (hMoves : MovesTo s s' k move.1 move.2.2) :
    VerdictInv g s' d' := by
  generalize hAt : s.pc k = pc at hMove hMerge
  have hOff :
      d'.writeUnion = d.writeUnion →
      (pc ≠ .checking ∧ ∀ rest, pc ≠ .inserting rest) →
        VerdictInv g s' d' := by
    intro hSame hPc
    rcases hMove.offVerdict (by simp) (fun _ => hPc) with
      ⟨hIns, hEvents, hAdmitted⟩
    rw [← hAt] at hAdmitted
    exact verdictInv_off hInv hMoves hSame hIns hEvents
      hAdmitted
  cases hMerge with
  | region => exact hOff rfl (by simp)
  | dataCommit => exact hOff rfl (by simp)
  | groupCommit => exact hOff rfl (by simp)
  | checking hPass =>
      cases hMove
      exact verdictInv_checking hRecords hInv hCheck hk hAt
        hPass hMoves
  | inserting hAdd =>
      cases hMove
      exact verdictInv_insert hRecords hMatch hInv hCheck hk
        hAt hAdd hMoves
  | none hRegion hChecking hInserting hData hGroup =>
      by_cases hDone : pc = .inserting []
      · subst hDone
        cases hMove
        have hClear : g.ClearOf s.log k :=
          hInv.admitted k (by rw [hAt]; rfl)
        exact verdictInv_ended hInv hCheck
          (by rw [hAt]; rfl) hInv.union hMoves rfl
          (by simp [hClear])
      · refine hOff rfl ⟨hChecking, ?_⟩
        intro rest hRest
        cases rest with
        | nil => exact hDone hRest
        | cons range rest =>
            exact hInserting range rest hRest

/- A check that fails has met a conflict. -/
theorem mergeReact_fail
    (h : mergeReact g s (.task k, .fail) d = some d') :
    ∃ st conflict,
      checkForOverlap (freshCheck d.writeUnion)
          (g.readMap k) = .ret (st, conflict + 1) ∧
        d' = { d with writeUnion := st.writeUnion } := by
  simp only [mergeReact] at h
  split at h
  · rename_i st conflict hAnswer
    rw [Option.some.injEq] at h
    exact ⟨st, conflict, hAnswer, h.symm⟩
  · cases h

/- Only regions, checks and commits touch the data. -/
theorem mergeReact_of_act
    {act : Act}
    (hGo : act ≠ .go)
    (hFail : act ≠ .fail) :
    mergeReact g s (.task k, act) d = some d := by
  cases act <;> first | rfl | contradiction

theorem verdictInv_step
    {label : Proc × Act}
    (hSize : 1 ≤ g.size)
    (hRecords : g.Records)
    (hMatch : g.WritesMatch)
    (hReach : (protocol g.protocolGroup).Reachable
      Machine.anyStep s)
    (hInv : VerdictInv g s d)
    (hStep : step g.protocolGroup s label = some s')
    (hReact : mergeReact g s label d = some d') :
    VerdictInv g s' d' := by
  rcases checkInv_of_reachable hReach with ⟨b, hCheck⟩
  have hUnspawned := unspawned_of_reachable hReach
  cases coreStep_of_step hStep with
  | moved k act move hLabel hMove hFree hPc hHeld hPsize
      hLog =>
      subst hLabel
      have hMoves : MovesTo s s' k move.1 move.2.2 :=
        movesTo_of_moved hUnspawned hMove hPc hLog
      have hk : k < g.size := by
        have hBorn := (birthInv_of_reachable hReach).born k
          hMove.ne_unborn
        change k = 0 ∨ k < g.size at hBorn
        omega
      by_cases hGo : act = .go
      · subst hGo
        exact verdictInv_go hRecords hMatch hInv hCheck hk
          hMove (mergeMove_of_mergeGo hReact) hMoves
      · by_cases hFail : act = .fail
        · subst hFail
          rcases mergeReact_fail hReact with
            ⟨st, conflict, hAnswer, rfl⟩
          generalize hAt : s.pc k = pc at hMove
          cases hMove
          rcases clearOf_of_check hRecords hInv.union hCheck
              hk hAt hAnswer with
            ⟨hVerdict, hUnion⟩
          refine verdictInv_ended hInv hCheck
            (by rw [hAt]; rfl) hUnion hMoves rfl ?_
          rw [← hVerdict]
          simp
        · rw [mergeReact_of_act hGo hFail,
            Option.some.injEq] at hReact
          rcases hMove.offVerdict hFail
              (fun h => absurd h hGo) with
            ⟨hIns, hEvents, hAdmitted⟩
          exact verdictInv_off hInv hMoves (by rw [hReact])
            hIns hEvents hAdmitted
  | ended k why hLabel hAlive hPc hHeld hPsize hLog =>
      rw [mergeReact_of_signal hLabel,
        Option.some.injEq] at hReact
      have hMoves : MovesTo s s' k (.exited why) [] :=
        movesTo_of_ended hPc hLog
      exact verdictInv_off hInv hMoves (by rw [hReact]) rfl
        (by simp) (by simp [admitted])
  | aside hLabel hPc hHeld hPsize hLog =>
      rw [mergeReact_of_signal hLabel,
        Option.some.injEq] at hReact
      rcases log_of_aside hLog with ⟨events, hEq, hUndy⟩
      have hIns : insertions events = [] := by
        apply List.filterMap_eq_nil_iff.mpr
        intro e he
        rw [hUndy e he]
      refine verdictInv_keep hInv ?_ hEq ?_ ?_
      · rw [← hReact, hEq, insertions_append, hIns,
          List.append_nil]
        exact hInv.union
      · intro j result hMem
        have hNot := hUndy _ hMem
        cases hNot
      · intro j hj
        rw [hPc] at hj
        exact hInv.admitted j hj

theorem verdictInv_of_reachable
    (hSize : 1 ≤ g.size)
    (hRecords : g.Records)
    (hMatch : g.WritesMatch)
    {ok : State (MemRange Bytes) × MergeData →
      Proc × Act → Prop}
    {state : State (MemRange Bytes) × MergeData}
    (h : (mergeMachine g).Reachable ok state) :
    VerdictInv g state.1 state.2 := by
  refine h.invariant
    (fun state => VerdictInv g state.1 state.2) ?_ ?_
  · refine ⟨unionOf_nil.push, ?_, ?_, ?_, ?_⟩
    · intro k hk
      by_cases hMain : k = 0 <;>
        simp [mergeMachine, Machine.withData, protocol,
          State.init, hMain, admitted] at hk
    all_goals
      simp [mergeMachine, Machine.withData, protocol,
        State.init]
  · intro state label state' hReach hInv _ hStep
    rcases Machine.withData_step_iff.mp hStep with
      ⟨hControl, hReact⟩
    exact verdictInv_step hSize hRecords hMatch
      hReach.control_any hInv hControl hReact

end Checks

theorem copy_frame
    {src dst a : Nat}
    {m : Memory}
    (ha : a ∉ callBytes [(dst, 1)]) :
    Function.update m dst (m src) a = m a := by
  rw [Function.update_of_ne]
  intro hEq
  subst hEq
  exact ha ⟨(a, 1), by simp, by simp⟩

theorem copy_determined
    {src dst : Nat}
    {m m' : Memory}
    (hEq : Set.EqOn m m' (callBytes [(src, 1)])) :
    Set.EqOn (Function.update m' dst (m' src))
      (Function.update m dst (m src))
      (callBytes [(dst, 1)]) := by
  intro a h
  rcases h with ⟨c, hc, ha⟩
  simp only [List.mem_singleton] at hc
  subst hc
  have hAddr : a = dst := by
    simp only [Set.mem_Ico] at ha
    omega
  have hSame : m src = m' src :=
    hEq ⟨(src, 1), by simp, by simp⟩
  rw [hAddr, Function.update_self, Function.update_self,
    hSame]

/- The region that copies the byte at `src` to `dst`. -/
def copyRegion (src dst : Nat) : Region where
  body := fun m => Function.update m dst (m src)
  readCalls := fun _ => [(src, 1)]
  writeCalls := fun _ => [(dst, 1)]
  frame := fun _ _ => copy_frame
  determined := fun _ _ hEq => ⟨rfl, copy_determined hEq⟩

/- Three copying tasks; task 2 reads what task 0 writes. -/
def copyGroup : MergeGroup where
  size := 3
  region := fun k =>
    if k = 0 then copyRegion 10 1
    else if k = 1 then copyRegion 11 2
    else copyRegion 1 3
  memory := fun a => if a = 10 then 5 else 0
  pprIndex := 1
  patches := fun _ => initEmptyMap
  atomicSet := false
  mainLeads := true

/- An address of a byte that can be recorded. -/
def RecordsByte (addr : Nat) : Prop :=
  0 < addr ∧ addr + 1 < 2 ^ 64

theorem copyGroup_region (k : Nat) :
    ∃ src dst, RecordsByte src ∧ RecordsByte dst ∧
      copyGroup.region k = copyRegion src dst := by
  have hByte : ∀ addr, 0 < addr → addr < 20 →
      RecordsByte addr := by
    intro addr hPos hLt
    exact ⟨hPos, by omega⟩
  by_cases hMain : k = 0
  · refine ⟨10, 1, hByte 10 (by decide) (by decide),
      hByte 1 (by decide) (by decide), ?_⟩
    simp [copyGroup, hMain]
  · by_cases hFirst : k = 1
    · refine ⟨11, 2, hByte 11 (by decide) (by decide),
        hByte 2 (by decide) (by decide), ?_⟩
      simp [copyGroup, hFirst]
    · refine ⟨1, 3, hByte 1 (by decide) (by decide),
        hByte 3 (by decide) (by decide), ?_⟩
      simp [copyGroup, hMain, hFirst]

/- A single access of one byte is recorded exactly. -/
theorem recordsExactly_single
    {addr : Nat}
    (hByte : RecordsByte addr) :
    (∀ c ∈ [(addr, 1)], CallOk c) ∧
      RecordsExactly [(addr, 1)] := by
  constructor
  · intro c hc
    simp only [List.mem_singleton] at hc
    subst hc
    exact ⟨hByte.1, Nat.one_pos, hByte.2⟩
  · refine ⟨?_, trivial⟩
    simp [RootHolds, initEmptyMap, RangeMap.ranges]

theorem copyGroup_records : copyGroup.Records := by
  constructor
  · intro k _
    rcases copyGroup_region k with
      ⟨src, dst, hSrc, hDst, hRegion⟩
    rw [hRegion]
    exact recordsExactly_single hSrc
  · intro k _
    rcases copyGroup_region k with
      ⟨src, dst, hSrc, hDst, hRegion⟩
    rw [hRegion]
    exact recordsExactly_single hDst

theorem copyGroup_writesMatch : copyGroup.WritesMatch := by
  have hAll : ∀ i < 3, ∀ j < 3,
      ∀ r ∈ (copyGroup.writeMap i).ranges,
        ∀ s ∈ (copyGroup.writeMap j).ranges,
          i ≠ j → r.base + r.size ≤ s.base ∨
            s.base + s.size ≤ r.base := by
    decide
  intro i hi j hj hNe r hr s hs
  right
  intro hMeets
  have hApart := hAll i hi j hj r hr s hs hNe
  rcases hMeets with ⟨hLeft, hRight⟩
  omega

/- Tasks 0 and 1 commit their data, and task 2 fails. -/
def untilCopiesFail : List (Proc × Act) :=
  List.replicate 11 (.task 0, .go) ++
    List.replicate 12 (.task 1, .go) ++
    List.replicate 5 (.task 2, .go) ++ [(.task 2, .fail)]

end Cbop
