import Cbop.Group.Merge

/-
  When the group commit is the sequential execution.

  In a run without failures the committing task lays the
  patches of the earlier tasks over its own memory. Nothing
  tells its own writes from what it copied at its start, so
  where it and an earlier task both write, the earlier
  task's bytes win.

  Main declarations:
    * `mergeInv_of_reachable`
    * `group_commit_sequential_iff`
-/

namespace Cbop

------------------------------------------------------------
-- Patches as Layers
------------------------------------------------------------

namespace MergeGroup

variable {g : MergeGroup}

theorem Records.readMap_spec
    (h : g.Records)
    {k : Nat}
    (hk : k < g.size) :
    (g.readMap k).WellFormed ∧
      (g.readMap k).covered =
        callBytes ((g.region k).readCalls g.memory) ∧
      ∀ r ∈ (g.readMap k).ranges, 0 < r.base :=
  covered_recordAll (h.reads k hk).1 (h.reads k hk).2

theorem Records.writeMap_spec
    (h : g.Records)
    {k : Nat}
    (hk : k < g.size) :
    (g.writeMap k).WellFormed ∧
      (g.writeMap k).covered =
        callBytes ((g.region k).writeCalls g.memory) ∧
      ∀ r ∈ (g.writeMap k).ranges, 0 < r.base :=
  covered_recordAll (h.writes k hk).1 (h.writes k hk).2

/- A task's patch is the layer of its transaction. -/
theorem Records.applyPatch_eq_layer
    (h : g.Records)
    {k : Nat}
    (hk : k < g.size)
    (m : Memory) :
    applyPatch m
        (createPatch ((g.region k).body g.memory)
          (g.writeMap k)) =
      Transaction.layer g.memory m
        (g.region k).transaction := by
  rcases h.writeMap_spec hk with ⟨hWell, hCovered, -⟩
  have hWrites :
      (g.writeMap k).covered =
        (g.region k).transaction.writes g.memory := hCovered
  exact Cbop.applyPatch_eq_layer hWell hWrites m

/- The patches of the first tasks, one after another. -/
theorem Records.foldl_applyPatch
    (h : g.Records)
    (patches : Nat → RangeMap Bytes)
    (m : Memory)
    (n : Nat)
    (hn : n ≤ g.size)
    (hPatches : ∀ k, k < n →
      patches k = createPatch ((g.region k).body g.memory)
        (g.writeMap k)) :
    (List.range n).foldl
        (fun mem ppr => applyPatch mem (patches ppr)) m =
      Transaction.replay g.memory (g.transactions n) m := by
  induction n with
  | zero => rfl
  | succ n ih =>
      have hFirst := ih (by omega)
        (fun k hk => hPatches k (by omega))
      rw [List.range_succ, List.foldl_append, hFirst,
        transactions_succ, Transaction.replay_append]
      change applyPatch _ (patches n) = _
      rw [hPatches n (by omega),
        h.applyPatch_eq_layer (by omega)]
      rfl

end MergeGroup

------------------------------------------------------------
-- The Group Commit
------------------------------------------------------------

section Steps

variable {g : MergeGroup}
variable {s s' : State (MemRange Bytes)}
variable {d : MergeData}
variable {k : Nat}

/- The last task commits the group. -/
theorem mergeInv_groupCommit
    (hRecords : g.Records)
    (hSlot : (g.patches (g.size - 1)).ranges = [])
    (hInv : MergeInv g s d)
    (hPc : s.pc k = .groupCommit)
    (hMoves : MovesTo s s' k .groupSignal
      [.groupCommitted k])
    (hLast : k + 1 = g.size)
    (hEarlier : ∀ j, j < k →
      Event.dataCommitted j ∈ s.log)
    (hOwn : Event.dataCommitted k ∉ s.log)
    (hNone : ∀ j, Event.groupCommitted j ∉ s.log) :
    MergeInv g s' { d with
      patches := (pprGroupCommit d.patches k (d.mem k)).1
      mem := Function.update d.mem k
        (pprGroupCommit d.patches k (d.mem k)).2 } := by
  have hGroup :
      ∀ j, (Event.groupCommitted j ∈ s'.log ↔ j = k) := by
    intro j
    simp [hMoves.log, hNone]
  have hData :
      ∀ j, (Event.dataCommitted j ∈ s'.log ↔
        Event.dataCommitted j ∈ s.log) := by
    intro j
    simp [hMoves.log]
  have hClear : g.Cleared k :=
    hInv.clearedAt k (by rw [hPc]; rfl)
  have hRan : d.mem k = (g.region k).body g.memory :=
    hInv.memRan k (by rw [hPc]; rfl) (hNone k)
  -- the committing task's own slot is as the group found it
  have hEmpty : (d.patches k).ranges = [] := by
    rw [hInv.unpatched hNone k hOwn]
    have hIndex : k = g.size - 1 := by omega
    rw [hIndex]
    exact hSlot
  have hMem :
      (pprGroupCommit d.patches k (d.mem k)).2 =
        Transaction.replay g.memory (g.transactions k)
          ((g.region k).body g.memory) := by
    change (List.range (k + 1)).foldl _ (d.mem k) = _
    rw [List.range_succ, List.foldl_append,
      hRecords.foldl_applyPatch d.patches _ k (by omega)
        (fun j hj => hInv.patched hNone j (hEarlier j hj)),
      hRan]
    exact applyPatch_of_empty _ hEmpty
  refine ⟨?_, ?_, ?_, ?_, ?_, ?_, ?_, ?_⟩
  · rw [hMoves.log, insertions_append]
    simpa [insertions] using hInv.union
  · intro j hj
    by_cases hSelf : j = k
    · subst hSelf
      simp [hMoves.self, fresh] at hj
    · rw [hMoves.other fresh rfl j hSelf] at hj
      change Function.update d.mem k _ j = _
      rw [Function.update_of_ne hSelf]
      exact hInv.memFresh j hj
  · intro j hj hNot
    rw [hGroup] at hNot
    rw [hMoves.other ranRegion rfl j hNot] at hj
    change Function.update d.mem k _ j = _
    rw [Function.update_of_ne hNot]
    exact hInv.memRan j hj (hNone j)
  · intro j hj
    by_cases hSelf : j = k
    · rw [hSelf]
      exact hClear
    · rw [hMoves.other cleared rfl j hSelf] at hj
      exact hInv.clearedAt j hj
  · intro j hj
    rw [hData, hGroup] at hj
    rcases hj with hj | rfl
    · exact hInv.clearedLog j (.inl hj)
    · exact hClear
  · intro hNone'
    exact absurd ((hGroup k).mpr rfl) (hNone' k)
  · intro hNone'
    exact absurd ((hGroup k).mpr rfl) (hNone' k)
  · intro j hj
    rw [hGroup] at hj
    subst hj
    change Function.update d.mem j _ j = _
    rw [Function.update_self]
    exact hMem

------------------------------------------------------------
-- Checks and Insertions
------------------------------------------------------------

/- A check that ended and did not fail has passed. -/
theorem passed_of_ended
    {ρ : Type}
    {log : List (Event ρ)}
    {j : Nat}
    (hEnded : ended log j = true)
    (hUnfailed : ¬Failed log j) :
    passed log j = true := by
  unfold ended at hEnded
  rw [List.any_eq_true] at hEnded
  rcases hEnded with ⟨e, he, hIs⟩
  cases e with
  | checkEnded i result =>
      simp only [decide_eq_true_eq] at hIs
      subst hIs
      cases result with
      | true =>
          refine List.any_eq_true.mpr ⟨_, he, ?_⟩
          simp
      | false => exact absurd (.inr he) hUnfailed
  | _ => simp at hIs

/- The ranges inserted so far are ranges of the tasks. -/
theorem mem_passedWrites
    {ρ : Type}
    {cfg : Group ρ}
    {log : List (Event ρ)}
    {m : Nat}
    {r : ρ}
    (h : r ∈ passedWrites cfg log m) :
    ∃ j, j < m ∧ r ∈ cfg.writes j := by
  unfold passedWrites at h
  rw [List.mem_flatMap] at h
  rcases h with ⟨j, hj, hr⟩
  refine ⟨j, List.mem_range.mp hj, ?_⟩
  split at hr
  · exact hr
  · cases hr

/- A task whose check finds no conflict is clear. -/
theorem cleared_of_check
    {b : Baton}
    {st : CheckState}
    (hRecords : g.Records)
    (hInv : MergeInv g s d)
    (hCalm : CalmInv g.protocolGroup s)
    (hCheck : CheckInv g.protocolGroup s.relay b)
    (hk : k < g.size)
    (hPc : s.pc k = .checking)
    (hPass : checkForOverlap (freshCheck d.writeUnion)
      (g.readMap k) = .ret (st, 0)) :
    g.Cleared k ∧
      UnionOf [insertions s.log] st.writeUnion := by
  rcases hRecords.readMap_spec hk with
    ⟨hWell, hCovered, hPos⟩
  rcases checkForOverlap_eq_zero hInv.union.keeps hWell hPos
      hPass with
    ⟨hRanges, hSize, hFree⟩
  refine ⟨?_, hInv.union.of_ranges hRanges hSize⟩
  have hPhase : s.relay.phases k = .checking := by
    simp [State.relay, hPc, phase]
  have hB : b = .busy k :=
    hCheck.busy k (by rw [hPhase]; rfl)
  subst hB
  have hIns := hCheck.inserted
  simp only [InsertionsAt, hPhase] at hIns
  intro j hj
  have hEnded : ended s.log j = true := by
    apply hCheck.closed j
    · simp only [Baton.count]
      omega
    · simp only [ne_eq, Baton.busy.injEq]
      omega
  have hPassed : passed s.log j = true :=
    passed_of_ended hEnded (hCalm.unfailed j)
  rw [← hCovered, ← (hRecords.writeMap_spec
    (Nat.lt_trans hj hk)).2.1]
  apply (hFree.mp rfl).mono_right
  rw [hInv.union.covers]
  intro a h
  rcases h with ⟨r, hr, ha⟩
  refine ⟨insertions s.log, List.mem_singleton_self _, r, ?_,
    ha⟩
  have hInsEq :
      insertions s.log =
        passedWrites g.protocolGroup s.log k := hIns.1
  rw [hInsEq]
  unfold passedWrites
  rw [List.mem_flatMap]
  refine ⟨j, List.mem_range.mpr hj, ?_⟩
  rw [if_pos hPassed]
  exact hr

/- Any two ranges of the group's tasks agree. -/
theorem MergeGroup.WritesMatch.agree
    (hMatch : g.WritesMatch)
    (hRecords : g.Records)
    {i j : Nat}
    (hi : i < g.size)
    (hj : j < g.size)
    {q r : MemRange Bytes}
    (hq : q ∈ (g.writeMap i).ranges)
    (hr : r ∈ (g.writeMap j).ranges) :
    EqualOrDisjoint q r := by
  by_cases hEq : i = j
  · subst hEq
    exact (hRecords.writeMap_spec hi).1.apart.equalOrDisjoint
      hq hr
  · exact hMatch i hi j hj hEq q hq r hr

/- An insertion keeps the write union exact. -/
theorem union_of_insert
    {b : Baton}
    {range : MemRange Bytes}
    {rest : List (MemRange Bytes)}
    {writeUnion : RangeMap Bytes}
    (hRecords : g.Records)
    (hMatch : g.WritesMatch)
    (hInv : MergeInv g s d)
    (hCheck : CheckInv g.protocolGroup s.relay b)
    (hk : k < g.size)
    (hPc : s.pc k = .inserting (range :: rest))
    (hAdd : unionAddRange (g.pprIndex + k) d.writeUnion
      range = .ret writeUnion) :
    UnionOf [insertions s.log ++ [range]] writeUnion := by
  have hPhase :
      s.relay.phases k = .inserting (range :: rest) := by
    simp [State.relay, hPc, phase]
  have hB : b = .busy k :=
    hCheck.busy k (by rw [hPhase]; rfl)
  subst hB
  have hIns := hCheck.inserted
  simp only [InsertionsAt, hPhase] at hIns
  have hList :
      insertions s.log ++ (range :: rest) =
        passedWrites g.protocolGroup s.log k ++
          (g.writeMap k).ranges := hIns.1
  have hOf :
      ∀ q ∈ insertions s.log ++ (range :: rest),
        ∃ j, j < g.size ∧ q ∈ (g.writeMap j).ranges := by
    intro q hq
    rw [hList, List.mem_append] at hq
    rcases hq with hq | hq
    · rcases mem_passedWrites hq with ⟨j, hj, hMem⟩
      exact ⟨j, Nat.lt_trans hj hk, hMem⟩
    · exact ⟨k, hk, hq⟩
  rcases hOf range (by simp) with ⟨j, hj, hRange⟩
  have hValid : range.Valid :=
    (hRecords.writeMap_spec hj).1.apart.valid range hRange
  have hAgree :
      ∀ ws ∈ [] ++ [insertions s.log],
        ∀ q ∈ ws, EqualOrDisjoint q range := by
    intro ws hws q hq
    have hEq : ws = insertions s.log := by
      simpa using hws
    subst hEq
    rcases hOf q (List.mem_append_left _ hq) with
      ⟨i, hi, hMem⟩
    exact hMatch.agree hRecords hi hj hMem hRange
  have hOld :
      UnionOf ([] ++ [insertions s.log]) d.writeUnion :=
    hInv.union
  rcases unionAddRange_spec (g.pprIndex + k) hOld hValid
      hAgree with
    ⟨wu', hRet, hUnion⟩
  rw [hAdd] at hRet
  have hEq : writeUnion = wu' := by
    simpa using hRet
  rw [hEq]
  exact hUnion

/- A task moves without touching the data. -/
theorem mergeInv_off
    {pc : Pc (MemRange Bytes)}
    {events : List (Event (MemRange Bytes))}
    (hInv : MergeInv g s d)
    (hMoves : MovesTo s s' k pc events)
    (hEvents : ∀ e ∈ events, Event.onData e = false)
    (hFresh : fresh pc = true → fresh (s.pc k) = true)
    (hRan : ranRegion pc = true →
      ranRegion (s.pc k) = true)
    (hCleared : cleared pc = true →
      cleared (s.pc k) = true) :
    MergeInv g s' d := by
  have hView :
      ∀ view : Pc (MemRange Bytes) → Bool,
        view .gap = view .unborn →
        (view pc = true → view (s.pc k) = true) →
          ∀ j, view (s'.pc j) = true →
            view (s.pc j) = true := by
    intro view hGap hSelf j hj
    by_cases hEq : j = k
    · subst hEq
      rw [hMoves.self] at hj
      exact hSelf hj
    · rwa [hMoves.other view hGap j hEq] at hj
  exact mergeInv_keep hInv hMoves.log hEvents
    (hView fresh rfl hFresh) (hView ranRegion rfl hRan)
    (hView cleared rfl hCleared)

/- The move of a task, and what it does to the data. -/
theorem mergeInv_go
    {b : Baton}
    {d' : MergeData}
    {move : Move (MemRange Bytes)}
    (hRecords : g.Records)
    (hMatch : g.WritesMatch)
    (hSlot : (g.patches (g.size - 1)).ranges = [])
    (hReach : (protocol g.protocolGroup).Reachable
      NoAborts s)
    (hCheck : CheckInv g.protocolGroup s.relay b)
    (hk : k < g.size)
    (hInv : MergeInv g s d)
    (hMove : TaskMove g.protocolGroup k s.partialSize
      (s.pc k) .go move)
    (hMerge : MergeMove g k d (s.pc k) d')
    (hMoves : MovesTo s s' k move.1 move.2.2) :
    MergeInv g s' d' := by
  rcases calmInv_of_reachable hReach with ⟨hCalm, hShrinks⟩
  have hFail := failInv_of_reachable hShrinks
  have hNot :
      pastCommit (s.pc k) = false →
        Event.groupCommitted k ∉ s.log := by
    intro hPast hMem
    rw [hFail.past k hMem] at hPast
    cases hPast
  generalize hAt : s.pc k = pc at hMove hMerge
  cases hMerge with
  | region =>
      have hNone := hNot (by rw [hAt]; rfl)
      cases hMove with
      | endMain =>
          exact mergeInv_region hInv hAt hMoves hNone
      | endSpec =>
          exact mergeInv_region hInv hAt hMoves hNone
  | checking hPass =>
      cases hMove with
      | checking =>
          rcases cleared_of_check hRecords hInv hCalm hCheck
              hk hAt hPass with
            ⟨hClear, hUnion⟩
          refine mergeInv_check hInv (by rw [hAt]; rfl) rfl
            hMoves (by simp) ?_ hClear
          simpa [insertions] using hUnion
  | inserting hAdd =>
      cases hMove with
      | insert =>
          have hClear :=
            hInv.clearedAt k (by rw [hAt]; rfl)
          refine mergeInv_check hInv (by rw [hAt]; rfl) rfl
            hMoves (by simp) ?_ hClear
          simpa [insertions] using
            union_of_insert hRecords hMatch hInv hCheck hk
              hAt hAdd
  | dataCommit =>
      cases hMove with
      | dataCommit =>
          exact mergeInv_dataCommit hInv hAt hMoves
            (hNot (by rw [hAt]; rfl))
  | groupCommit =>
      cases hMove with
      | groupCommit =>
          rcases calm_commit hReach hAt with
            ⟨hLast, hEarlier, hNone⟩
          have hLastSize : k + 1 = g.size := hLast
          refine mergeInv_groupCommit hRecords hSlot hInv hAt
            hMoves hLastSize hEarlier ?_ hNone
          intro hData
          have hLt : k + 1 < g.size := hCalm.data k hData
          omega
  | none hRegion hChecking hInserting hData hGroup =>
      rcases hMove.offData (by simp) (fun _ =>
          ⟨hRegion, hChecking, hInserting, hData, hGroup⟩) with
        ⟨hEvents, hFresh, hRan, hCleared⟩
      rw [← hAt] at hFresh hRan hCleared
      exact mergeInv_off hInv hMoves hEvents hFresh hRan
        hCleared

/- Signals and the understudy leave the data alone. -/
theorem mergeReact_of_signal
    {label : Proc × Act}
    (h : IsSignal label) :
    mergeReact g s label d = some d := by
  rcases label with ⟨proc, act⟩
  cases proc with
  | undy => rfl
  | task k =>
      rcases h k act rfl with rfl | rfl <;> rfl

/- One step of the group and its data. -/
theorem mergeInv_step
    {d' : MergeData}
    {label : Proc × Act}
    (hRecords : g.Records)
    (hMatch : g.WritesMatch)
    (hSlot : (g.patches (g.size - 1)).ranges = [])
    (hSize : 1 ≤ g.size)
    (hReach : (protocol g.protocolGroup).Reachable
      NoAborts s)
    (hInv : MergeInv g s d)
    (hOk : NoAborts s label)
    (hStep : step g.protocolGroup s label = some s')
    (hReact : mergeReact g s label d = some d') :
    MergeInv g s' d' := by
  rcases calmInv_of_reachable hReach with ⟨hCalm, -⟩
  rcases checkInv_of_reachable hReach with ⟨b, hCheck⟩
  have hUnspawned := unspawned_of_reachable hReach
  cases coreStep_of_step hStep with
  | moved k act move hLabel hMove hFree hPc hHeld hPsize
      hLog =>
      subst hLabel
      have hMoves : MovesTo s s' k move.1 move.2.2 :=
        movesTo_of_moved hUnspawned hMove hPc hLog
      have hk : k < g.size := by
        have hBorn := hCalm.born k hMove.ne_unborn
        change k = 0 ∨ k < g.size at hBorn
        omega
      by_cases hGo : act = .go
      · subst hGo
        exact mergeInv_go hRecords hMatch hSlot hReach hCheck
          hk hInv hMove (mergeMove_of_mergeGo hReact) hMoves
      · have hSame : d' = d := by
          have hActs := hOk
          cases act <;> simp_all [NoAborts, mergeReact]
        rw [hSame]
        rcases hMove.offData hOk.1
            (fun h => absurd h hGo) with
          ⟨hEvents, hFresh, hRan, hCleared⟩
        exact mergeInv_off hInv hMoves hEvents hFresh hRan
          hCleared
  | ended k why hLabel hAlive hPc hHeld hPsize hLog =>
      rw [mergeReact_of_signal hLabel] at hReact
      simp only [Option.some.injEq] at hReact
      subst hReact
      have hMoves : MovesTo s s' k (.exited why) [] :=
        movesTo_of_ended hPc hLog
      exact mergeInv_off hInv hMoves (by simp)
        (by simp [fresh]) (by simp [ranRegion])
        (by simp [cleared, ranRegion])
  | aside hLabel hPc hHeld hPsize hLog =>
      rw [mergeReact_of_signal hLabel] at hReact
      simp only [Option.some.injEq] at hReact
      subst hReact
      rcases log_of_aside hLog with ⟨events, hEq, hUndy⟩
      have hOff : ∀ e ∈ events, Event.onData e = false := by
        intro e he
        rw [hUndy e he]
        rfl
      exact mergeInv_keep hInv hEq hOff (by simp [hPc])
        (by simp [hPc]) (by simp [hPc])

/- What holds of the data along a run without aborts. -/
theorem mergeInv_of_reachable
    (hRecords : g.Records)
    (hMatch : g.WritesMatch)
    (hSlot : (g.patches (g.size - 1)).ranges = [])
    (hSize : 1 ≤ g.size)
    {state : State (MemRange Bytes) × MergeData}
    (h : (mergeMachine g).Reachable
      (fun state label => NoAborts state.1 label) state) :
    MergeInv g state.1 state.2 := by
  refine h.invariant
    (fun state => MergeInv g state.1 state.2) ?_ ?_
  · change MergeInv g (State.init g.protocolGroup) _
    have hPc :
        ∀ k, (State.init g.protocolGroup).pc k = .gap ∨
          (State.init g.protocolGroup).pc k = .unborn := by
      intro k
      by_cases hk : k = 0 <;> simp [State.init, hk]
    refine ⟨?_, ?_, ?_, ?_, ?_, ?_, ?_, ?_⟩
    · exact unionOf_nil.push
    · intro k _
      rfl
    · intro k hk
      rcases hPc k with hEq | hEq <;>
        simp [hEq, ranRegion] at hk
    · intro k hk
      rcases hPc k with hEq | hEq <;>
        simp [hEq, cleared, ranRegion] at hk
    · simp [State.init]
    · simp [State.init]
    · intro _ k _
      rfl
    · simp [State.init]
  · intro state label state' hReach hInv hOk hStep
    rcases Machine.withData_step_iff.mp hStep with
      ⟨hControl, hReact⟩
    exact mergeInv_step hRecords hMatch hSlot hSize
      hReach.control hInv hOk hControl hReact

end Steps

------------------------------------------------------------
-- Commit and Sequential Execution
------------------------------------------------------------

/- Tasks that are all clear are independent. -/
theorem independent_of_cleared
    {g : MergeGroup}
    {n : Nat}
    (h : ∀ k, k < n → g.Cleared k) :
    Transaction.Independent g.memory (g.transactions n) := by
  unfold Transaction.Independent MergeGroup.transactions
  rw [List.pairwise_map]
  apply List.pairwise_lt_range.imp_of_mem
  intro i j _ hj hLt
  exact h j (List.mem_range.mp hj) i hLt

/- The last task below `n` that writes the byte is `k`. -/
def MergeGroup.LastWrite
    (g : MergeGroup)
    (n : Nat)
    (a : Nat)
    (k : Nat) : Prop :=
  k < n ∧ a ∈ callBytes ((g.region k).writeCalls g.memory) ∧
    ∀ i, k < i → i < n →
      a ∉ callBytes ((g.region i).writeCalls g.memory)

/- It is the last writer among the transactions. -/
theorem lastWriter_iff
    {g : MergeGroup}
    {n a : Nat}
    {t : Transaction Nat UInt8} :
    Transaction.LastWriter g.memory (g.transactions n) a t ↔
      ∃ k, g.LastWrite n a k ∧
        t = (g.region k).transaction := by
  unfold MergeGroup.transactions
  constructor
  · intro hCase
    rcases hCase with ⟨before, after, hSplit, hWrites, hAfter⟩
    rcases List.map_eq_append_iff.mp hSplit with
      ⟨low, high, hRange, -, hHigh⟩
    rcases List.map_eq_cons_iff.mp hHigh with
      ⟨k, later, rfl, rfl, rfl⟩
    have hk : k < n := by
      rw [← List.mem_range, hRange]
      simp
    refine ⟨k, ⟨hk, hWrites, ?_⟩, rfl⟩
    intro i hi hn
    have hMem : i ∈ low ++ k :: later := by
      rw [← hRange]
      exact List.mem_range.mpr hn
    have hSorted : (low ++ k :: later).Pairwise (· < ·) := by
      rw [← hRange]
      exact List.pairwise_lt_range
    have hLow : i ∉ low := by
      intro hLow
      have hLt := (List.pairwise_append.mp hSorted).2.2 i
        hLow k List.mem_cons_self
      omega
    have hLater : i ∈ later := by
      rcases List.mem_append.mp hMem with h | h
      · exact absurd h hLow
      · rcases List.mem_cons.mp h with h | h
        · omega
        · exact h
    exact hAfter _ (List.mem_map_of_mem hLater)
  · intro hCase
    rcases hCase with ⟨k, ⟨hk, hWrites, hAfter⟩, rfl⟩
    have hRange :
        List.range n =
          List.range k ++
            k :: (List.range (n - (k + 1))).map (k + 1 + ·) := by
      have hSum : n = (k + 1) + (n - (k + 1)) := by omega
      conv_lhs => rw [hSum, List.range_add, List.range_succ]
      simp
    rw [hRange, List.map_append, List.map_cons]
    refine ⟨_, _, rfl, hWrites, ?_⟩
    intro u hu
    simp only [List.map_map, List.mem_map, List.mem_range,
      Function.comp_apply] at hu
    rcases hu with ⟨i, hi, rfl⟩
    exact hAfter _ (by omega) (by omega)

/-
  Wherever the last task and an earlier one write the same
  byte, the last of the earlier writers leaves the value
  the last task leaves.
-/
def MergeGroup.LastAgrees (g : MergeGroup) : Prop :=
  ∀ a ∈ callBytes
      ((g.region (g.size - 1)).writeCalls g.memory),
    ∀ k, g.LastWrite (g.size - 1) a k →
      (g.region k).body g.memory a =
        (g.region (g.size - 1)).body g.memory a

/- At the group commit every task has been found clear. -/
theorem cleared_of_groupCommitted
    {g : MergeGroup}
    {s : State (MemRange Bytes)}
    {d : MergeData}
    {j : Nat}
    (hReach : (protocol g.protocolGroup).Reachable
      NoAborts s)
    (hInv : MergeInv g s d)
    (hCommitted : Event.groupCommitted j ∈ s.log) :
    ∀ k, k < j + 1 → g.Cleared k := by
  rcases calmInv_of_reachable hReach with ⟨hCalm, hShrinks⟩
  have hFail := failInv_of_reachable hShrinks
  have hSignal := signalInv_of_reachable hReach
  have hLast := hCalm.last j hCommitted
  intro k hk
  by_cases hSelf : k = j
  · rw [hSelf]
    exact hInv.clearedLog j (.inr hCommitted)
  · have hSignalled := hFail.behind j hCommitted k (by omega)
    rcases hSignal.cause k hSignalled with
      hData | hGroup | hAborted
    · exact hInv.clearedLog k (.inl hData)
    · have hLast' := hCalm.last k hGroup
      omega
    · exact absurd (.inl hAborted) (hCalm.unfailed k)

/-
  A group that commits without aborts is committed by its
  last task, whose memory is then that of the sequential
  execution exactly if the last task agrees with the tasks
  before it.
-/
theorem group_commit_sequential_iff
    (g : MergeGroup)
    (hSize : 2 ≤ g.size)
    (hRecords : g.Records)
    (hMatch : g.WritesMatch)
    (hSlot : (g.patches (g.size - 1)).ranges = [])
    {s : State (MemRange Bytes)}
    {d : MergeData}
    (hReach : (mergeMachine g).Reachable
      (fun state label => NoAborts state.1 label) (s, d))
    {j : Nat}
    (hCommitted : Event.groupCommitted j ∈ s.log) :
    j + 1 = g.size ∧
      (d.mem j = g.sequential g.size ↔ g.LastAgrees) := by
  have hInv : MergeInv g s d :=
    mergeInv_of_reachable hRecords hMatch hSlot (by omega)
      hReach
  have hControl :
      (protocol g.protocolGroup).Reachable NoAborts s :=
    hReach.control
  have hLast : j + 1 = g.size :=
    (calmInv_of_reachable hControl).1.last j hCommitted
  refine ⟨hLast, ?_⟩
  have hIndependent :=
    independent_of_cleared
      (cleared_of_groupCommitted hControl hInv hCommitted)
  rw [g.transactions_succ] at hIndependent
  have hIndex : g.size - 1 = j := by omega
  rw [hInv.final j hCommitted, g.sequential_eq_serial,
    ← hLast, g.transactions_succ, MergeGroup.LastAgrees,
    hIndex]
  refine (Transaction.replay_onto_last_iff g.memory
    (g.transactions j) (g.region j).transaction
    hIndependent).trans ?_
  constructor
  · intro h a ha k hk
    exact h a ha _ (lastWriter_iff.mpr ⟨k, hk, rfl⟩)
  · intro h a ha t ht
    rcases lastWriter_iff.mp ht with ⟨k, hk, rfl⟩
    exact h a ha k hk

/- The region that stores one value at address 1. -/
def storeRegion (value : UInt8) : Region where
  body := fun m => Function.update m 1 value
  readCalls := fun _ => []
  writeCalls := fun _ => [(1, 1)]
  frame := by
    intro m a ha
    rw [Function.update_of_ne]
    intro hEq
    subst hEq
    exact ha ⟨(1, 1), by simp, by simp⟩
  determined := by
    intro m m' _
    refine ⟨rfl, ?_⟩
    intro a h
    rcases h with ⟨c, hc, ha⟩
    have hAddr : a = 1 := by
      simp only [List.mem_singleton] at hc
      subst hc
      simp only [Set.mem_Ico] at ha
      omega
    subst hAddr
    simp

/- Two tasks that store a value each at one address. -/
def storeGroup (first second : UInt8) : MergeGroup where
  size := 2
  region := fun k =>
    storeRegion (if k = 0 then first else second)
  memory := fun _ => 0
  pprIndex := 0
  patches := fun _ => initEmptyMap
  atomicSet := false
  mainLeads := true

theorem storeGroup_records (first second : UInt8) :
    (storeGroup first second).Records := by
  have hCall : ∀ c ∈ [(1, 1)], CallOk c := by
    intro c hc
    simp only [List.mem_singleton] at hc
    subst hc
    exact ⟨by decide, by decide, by decide⟩
  constructor
  · intro k _
    exact ⟨by simp [storeGroup, storeRegion], trivial⟩
  · intro k _
    refine ⟨hCall, ?_, trivial⟩
    simp [RootHolds, initEmptyMap, RangeMap.ranges]

theorem storeGroup_writesMatch (first second : UInt8) :
    (storeGroup first second).WritesMatch := by
  intro i _ j _ _ r hr q hq
  have hMaps :
      (storeGroup first second).writeMap i =
        (storeGroup first second).writeMap j := rfl
  rw [← hMaps] at hq
  have hSingle :
      ((storeGroup first second).writeMap i).ranges =
        [newNode 1 1 none] := rfl
  rw [hSingle, List.mem_singleton] at hr hq
  rw [hr, hq]
  exact .inl ⟨rfl, rfl⟩

/- The two tasks run, check and commit one after the other. -/
def untilStored : List (Proc × Act) :=
  List.replicate 11 (.task 0, .go) ++
    List.replicate 15 (.task 1, .go)

/- A run of the two tasks that ends in the group commit. -/
theorem storeGroup_run
    (first second value : UInt8)
    (h : ((mergeMachine (storeGroup first second)).run
      (fun _ label => label.2 = .go)
      (mergeMachine (storeGroup first second)).start
      untilStored).any
        (fun state =>
          Event.groupCommitted 1 ∈ state.1.log ∧
            state.2.mem 1 1 = value) = true) :
    ∃ s d, (mergeMachine (storeGroup first second)).Reachable
        (fun state label => NoAborts state.1 label) (s, d) ∧
      Event.groupCommitted 1 ∈ s.log ∧ d.mem 1 1 = value := by
  have hRun := Machine.exists_reachable_of_run
    (mergeMachine (storeGroup first second))
    (fun state label => NoAborts state.1 label)
    (fun _ label => label.2 = .go)
    (by
      intro s label hGo
      simp only [decide_eq_true_eq] at hGo
      simp [NoAborts, hGo])
    untilStored _ h
  rcases hRun with ⟨⟨s, d⟩, hReach, hTest⟩
  simp only [decide_eq_true_eq] at hTest
  exact ⟨s, d, hReach, hTest⟩

/- Both tasks store the same value. -/
theorem group_commit_sequential_same :
    ∃ s d, (mergeMachine (storeGroup 7 7)).Reachable
        (fun state label => NoAborts state.1 label) (s, d) ∧
      Event.groupCommitted 1 ∈ s.log ∧
      d.mem 1 = (storeGroup 7 7).sequential 2 := by
  rcases storeGroup_run 7 7 7 (by decide) with
    ⟨s, d, hReach, hCommitted, -⟩
  refine ⟨s, d, hReach, hCommitted, ?_⟩
  refine (group_commit_sequential_iff (storeGroup 7 7)
    (Nat.le_refl 2) (storeGroup_records 7 7)
    (storeGroup_writesMatch 7 7) rfl hReach
    hCommitted).2.mpr ?_
  intro a h
  rcases h with ⟨c, hc, ha⟩
  intro k hCase
  rcases hCase with -
  have hAddr : a = 1 := by
    simp only [storeGroup, storeRegion,
      List.mem_singleton] at hc
    subst hc
    simp only [Set.mem_Ico] at ha
    omega
  subst hAddr
  simp [storeGroup, storeRegion]

/-
  Task 0 stores 1 and task 1 stores 2. The patch of task 0
  is laid over the memory of task 1, and the last store is
  lost.
-/
theorem last_store_lost :
    ¬∀ g : MergeGroup, 2 ≤ g.size → g.Records →
      g.WritesMatch → (∀ k, (g.patches k).ranges = []) →
      ∀ s d, (mergeMachine g).Reachable
          (fun state label => NoAborts state.1 label)
          (s, d) →
        ∀ j, Event.groupCommitted j ∈ s.log →
          d.mem j = g.sequential g.size := by
  intro hAll
  rcases storeGroup_run 1 2 1 (by decide) with
    ⟨s, d, hReach, hCommitted, hValue⟩
  have hEq := hAll (storeGroup 1 2) (Nat.le_refl 2)
    (storeGroup_records 1 2) (storeGroup_writesMatch 1 2)
    (fun _ => rfl) s d hReach 1 hCommitted
  have hLast : (storeGroup 1 2).sequential 2 1 = 2 := by
    decide
  have hAt := congrFun hEq 1
  change d.mem 1 1 = (storeGroup 1 2).sequential 2 1 at hAt
  rw [hValue, hLast] at hAt
  exact absurd hAt (by decide)

end Cbop
