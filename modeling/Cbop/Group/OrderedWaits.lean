import Mathlib.Data.Nat.ModEq
import Mathlib.Data.Nat.Find
import Cbop.Group.OrderedEntry
import Cbop.PostWait.Publish

/-
  How long `BOP_ordered_begin` waits.

  The channels of the regions have a slot each if no two
  region ids agree modulo 10, the number of slots for each
  task. A task then waits exactly until all tasks before it
  have posted for the region or skipped it, unless

    * MAIN skips the region: it chains its channel to that
      of no task of the region, or
    * a task skips the region between one that has posted
      and one that has skipped it: `channel_chain` appends
      the posted channel to the other chain, of which it
      posts the last channel only.

  Main declarations:
    * `RegionGroup.OwnSlots`, `Disciplined`
    * `WaitInv`, `waitInv_of_reachable`
    * `waits_exactly`
-/

namespace Cbop

------------------------------------------------------------
-- Slots
------------------------------------------------------------

/- The slot of the channel of task `k` in region `r`. -/
def RegionGroup.slot (g : RegionGroup) (r k : Nat) : Nat :=
  g.channel r k % (postwaitInit g.boardSize g.size).size

/- No two channels of the regions share a slot. -/
def RegionGroup.OwnSlots (g : RegionGroup) : Prop :=
  ∀ r r' k k', r ∈ g.regions → r' ∈ g.regions →
    k < g.size → k' < g.size →
      g.slot r k = g.slot r' k' → r = r' ∧ k = k'

/- On a board of ten slots for each task. -/
theorem ownSlots_of_mod
    {g : RegionGroup}
    (hBoard : g.boardSize ≤ 10 * g.size)
    (hRegions : ∀ r ∈ g.regions, ∀ r' ∈ g.regions,
      r % 10 = r' % 10 → r = r') :
    g.OwnSlots := by
  intro r r' k k' hr hr' hk hk' hSlot
  have hSize : (postwaitInit g.boardSize g.size).size =
      10 * g.size := by
    unfold postwaitInit
    simp only
    split <;> omega
  have hAll :
      g.channel r k ≡ g.channel r' k' [MOD 10 * g.size] := by
    unfold RegionGroup.slot at hSlot
    rwa [hSize] at hSlot
  -- the task is the channel modulo the size of the group
  have hTask : k = k' := by
    have hMod := hAll.of_mul_left 10
    unfold RegionGroup.channel at hMod
    have hSum : g.pprIndex + k ≡ g.pprIndex + k'
        [MOD g.size] := by
      have hZero : ∀ n i, n * g.size + g.pprIndex + i ≡
          g.pprIndex + i [MOD g.size] := by
        intro n i
        unfold Nat.ModEq
        rw [Nat.add_assoc, Nat.mul_comm,
          Nat.mul_add_mod]
      exact ((hZero r k).symm.trans hMod).trans (hZero r' k')
    have hModK := Nat.ModEq.add_left_cancel' _ hSum
    unfold Nat.ModEq at hModK
    rwa [Nat.mod_eq_of_lt hk, Nat.mod_eq_of_lt hk'] at hModK
  subst hTask
  refine ⟨?_, rfl⟩
  apply hRegions r hr r' hr'
  have hRegion : r * g.size ≡ r' * g.size
      [MOD 10 * g.size] := by
    unfold RegionGroup.channel at hAll
    exact Nat.ModEq.add_right_cancel' _
      (Nat.ModEq.add_right_cancel' _ hAll)
  exact Nat.ModEq.mul_right_cancel' (by omega) hRegion

------------------------------------------------------------
-- The Invariant
------------------------------------------------------------

/-
  MAIN skips no region, no task skips one between a post
  and a skip, and the work between the calls leaves the
  local channel alone.
-/
def Disciplined (s : RegionState) : RegionCall → Prop
| .skip k r =>
    k ≠ 0 ∧ ¬(s.visit (k - 1) r = .posted ∧
      s.visit (k + 1) r = .skipped)
| .work k f =>
    (f (s.task k)).localCh.id = (s.task k).localCh.id
| _ => True

instance
    (s : RegionState)
    (call : RegionCall) :
    Decidable (Disciplined s call) :=
  match call with
  | .skip _ _ => inferInstanceAs (Decidable (_ ∧ ¬(_ ∧ _)))
  | .work _ _ => inferInstanceAs (Decidable (_ = _))
  | .enter _ _ => inferInstanceAs (Decidable True)
  | .leave _ _ => inferInstanceAs (Decidable True)

/-
  Tasks post after the ones before them, those that skip
  are chained to the one below, a channel next to no skip
  is by itself, and what is done up to a task is posted.
-/
structure WaitInv
    (g : RegionGroup)
    (s : RegionState) : Prop where
  idle : ∀ k, (s.task k).localCh.id = 0
  free : ∀ r k, r ∈ g.regions → k < g.size →
    ¬s.board.Taken (g.channel r k)
  main : ∀ r, s.visit 0 r ≠ .skipped
  after : ∀ k r, s.visit k r = .posted →
    ∀ j, j < k → s.Done j r
  alone : ∀ r k, r ∈ g.regions → k < g.size →
    s.visit k r ≠ .skipped → s.visit (k + 1) r ≠ .skipped →
      s.board.first (g.slot r k) = none
  linked : ∀ r k, r ∈ g.regions → k + 1 < g.size →
    s.visit (k + 1) r = .skipped →
      Chains.SameBlock s.board.first (g.slot r k)
        (g.slot r (k + 1))
  served : ∀ r k, r ∈ g.regions → k < g.size →
    (∀ j, j ≤ k → s.Done j r) →
      (s.board.channels (g.slot r k)).isPosted = true

section Invariant

variable {g : RegionGroup}
variable {s s' : RegionState}
variable {r k : Nat}

theorem ChainsInv.index_eq
    {parent : Nat → Option Nat}
    (hChains : ChainsInv g parent s)
    (r k : Nat) :
    s.board.index (g.channel r k) = g.slot r k := by
  unfold SwitchBoard.index RegionGroup.slot
  rw [hChains.size]

theorem setVisit_other
    {i r' : Nat}
    (s : RegionState)
    (v : Visit)
    (h : ¬(i = k ∧ r' = r)) :
    s.setVisit k r v i r' = s.visit i r' := by
  unfold RegionState.setVisit
  by_cases hi : i = k
  · subst hi
    rw [Function.update_self]
    exact Function.update_of_ne (fun hr => h ⟨rfl, hr⟩) _ _
  · rw [Function.update_of_ne hi]

/- A step that posts and skips nothing. -/
theorem WaitInv.quiet
    (hInv : WaitInv g s)
    (hBoard : s'.board = s.board)
    (hIdle : ∀ k, (s'.task k).localCh.id = 0)
    (hVisits : ∀ k r v, v = .posted ∨ v = .skipped →
      (s'.visit k r = v ↔ s.visit k r = v)) :
    WaitInv g s' := by
  have hPosted : ∀ k r,
      s'.visit k r = .posted ↔ s.visit k r = .posted :=
    fun k r => hVisits k r _ (Or.inl rfl)
  have hSkipped : ∀ k r,
      s'.visit k r = .skipped ↔ s.visit k r = .skipped :=
    fun k r => hVisits k r _ (Or.inr rfl)
  have hDone : ∀ k r, s'.Done k r ↔ s.Done k r := by
    intro k r
    exact or_congr (hPosted k r) (hSkipped k r)
  refine ⟨hIdle, ?_, ?_, ?_, ?_, ?_, ?_⟩
  · rw [hBoard]
    exact hInv.free
  · intro r
    rw [ne_eq, hSkipped]
    exact hInv.main r
  · intro k r hVisit j hj
    rw [hDone]
    exact hInv.after k r ((hPosted k r).mp hVisit) j hj
  · intro r k hr hk hSelf hNext
    rw [ne_eq, hSkipped] at hSelf hNext
    rw [hBoard]
    exact hInv.alone r k hr hk hSelf hNext
  · intro r k hr hk hNext
    rw [hBoard]
    exact hInv.linked r k hr hk ((hSkipped _ r).mp hNext)
  · intro r k hr hk hAll
    rw [hBoard]
    exact hInv.served r k hr hk
      (fun j hj => (hDone j r).mp (hAll j hj))

/- Above a task that is not done only skips are. -/
theorem WaitInv.skipped_above
    (hInv : WaitInv g s)
    {i : Nat}
    (hNot : ¬s.Done k r)
    (hDone : s.Done i r)
    (hi : k < i) :
    s.visit i r = .skipped := by
  rcases hDone with hPosted | hSkipped
  · exact absurd (hInv.after i r hPosted k hi) hNot
  · exact hSkipped

/- The skips above a task are in one chain with it. -/
theorem WaitInv.run_of_skips
    (hInv : WaitInv g s)
    {k' : Nat}
    (hr : r ∈ g.regions)
    (hk : k ≤ k')
    (hk' : k' < g.size)
    (hSkips : ∀ i, k < i → i ≤ k' →
      s.visit i r = .skipped) :
    Chains.SameBlock s.board.first (g.slot r k)
      (g.slot r k') := by
  induction k', hk using Nat.le_induction with
  | base => exact Or.inl rfl
  | succ n hn ih =>
      have hBelow := ih (by omega)
        (fun i hi hLe => hSkips i hi (by omega))
      exact hBelow.trans (hInv.linked r n hr hk'
        (hSkips (n + 1) (by omega) le_rfl))

/- When task `k` is done, the tasks above it skipped. -/
theorem WaitInv.skips_of_done
    (hInv : WaitInv g s)
    {k' : Nat}
    (hNot : ¬s.Done k r)
    (hOther : ∀ j, j ≠ k → s'.Done j r → s.Done j r)
    (hAll : ∀ j, j ≤ k' → s'.Done j r) :
    ∀ i, k < i → i ≤ k' → s.visit i r = .skipped := by
  intro i hi hLe
  exact hInv.skipped_above hNot
    (hOther i (by omega) (hAll i hLe)) hi

/- The names of the slots, when one of them gets its own. -/
theorem free_of_named
    {board board' : SwitchBoard}
    (hOwn : g.OwnSlots)
    (hr : r ∈ g.regions)
    (hk : k < g.size)
    (hFree : ∀ r k, r ∈ g.regions → k < g.size →
      ¬board.Taken (g.channel r k))
    (hIndex : ∀ r k,
      board.index (g.channel r k) = g.slot r k)
    (hSize : board'.size = board.size)
    (hSelf : (board'.channels (g.slot r k)).id =
      g.channel r k)
    (hOther : ∀ i, i ≠ g.slot r k →
      (board'.channels i).id = (board.channels i).id) :
    ∀ r k, r ∈ g.regions → k < g.size →
      ¬board'.Taken (g.channel r k) := by
  intro r' k' hr' hk' hTaken
  have hSame : board'.index (g.channel r' k') =
      g.slot r' k' := by
    unfold SwitchBoard.index
    rw [hSize]
    exact hIndex r' k'
  unfold SwitchBoard.Taken at hTaken
  rw [hSame] at hTaken
  by_cases hSlot : g.slot r' k' = g.slot r k
  · rcases hOwn r' r k' k hr' hr hk' hk hSlot with
      ⟨rfl, rfl⟩
    exact hTaken.2 hSelf
  · rw [hOther _ hSlot] at hTaken
    apply hFree r' k' hr' hk'
    unfold SwitchBoard.Taken
    rw [hIndex r' k']
    exact hTaken

/- Allocating the slot of a channel of its own. -/
theorem WaitInv.allocate
    (hInv : WaitInv g s)
    (hOwn : g.OwnSlots)
    (hIndex : ∀ r k,
      s.board.index (g.channel r k) = g.slot r k)
    (hr : r ∈ g.regions)
    (hk : k < g.size) :
    WaitInv g
      { s with board := s.board.allocate (g.channel r k) } := by
  refine ⟨hInv.idle, ?_, hInv.main, hInv.after, ?_, ?_, ?_⟩
  · apply free_of_named hOwn hr hk hInv.free hIndex
      (s.board.allocate_size _)
    · rw [← hIndex]
      exact s.board.allocate_id_self (hInv.free r k hr hk)
    · intro i hi
      rw [← hIndex] at hi
      exact congrArg Channel.id (s.board.allocate_of_ne hi)
  · simp only [s.board.allocate_first]
    exact hInv.alone
  · simp only [s.board.allocate_first]
    exact hInv.linked
  · simp only [s.board.allocate_isPosted]
    exact hInv.served

/- A task posts for its region, all before it being done. -/
theorem WaitInv.post
    (hInv : WaitInv g s)
    (hOwn : g.OwnSlots)
    (hIndex : ∀ r k,
      s.board.index (g.channel r k) = g.slot r k)
    (hr : r ∈ g.regions)
    (hk : k < g.size)
    (hVisit : s.visit k r = .begun)
    (hBefore : ∀ j, j < k → s.Done j r)
    (hReleased : Released s.board s'.board (g.channel r k))
    (hIdle : ∀ k, (s'.task k).localCh.id = 0)
    (hNew : s'.visit = s.setVisit k r .posted) :
    WaitInv g s' := by
  have hNot : ¬s.Done k r := by
    rw [RegionState.Done, hVisit]
    simp
  have hSelf : s'.visit k r = .posted := by
    rw [hNew]
    exact setVisit_self s k r .posted
  have hKeep : ∀ i r', ¬(i = k ∧ r' = r) →
      s'.visit i r' = s.visit i r' := by
    intro i r' hOther
    rw [hNew]
    exact setVisit_other s .posted hOther
  have hSkipped : ∀ i r',
      s'.visit i r' = .skipped ↔ s.visit i r' = .skipped := by
    intro i r'
    by_cases hEq : i = k ∧ r' = r
    · rcases hEq with ⟨rfl, rfl⟩
      rw [hSelf, hVisit]
      simp
    · rw [hKeep i r' hEq]
  have hLater : s.Later s' :=
    later_setVisit k r (by simp [hVisit]) (by simp [hVisit])
      hNew
  have hFirst := hReleased.first
  refine ⟨hIdle, ?_, ?_, ?_, ?_, ?_, ?_⟩
  · apply free_of_named hOwn hr hk hInv.free hIndex
      hReleased.size
    · rw [← hIndex]
      exact hReleased.id_self
    · intro i hi
      rw [← hIndex] at hi
      exact hReleased.id_other i hi
  · intro r'
    rw [ne_eq, hSkipped]
    exact hInv.main r'
  · intro i r' hPosted j hj
    by_cases hEq : i = k ∧ r' = r
    · rcases hEq with ⟨rfl, rfl⟩
      exact hLater.done (hBefore j hj)
    · rw [hKeep i r' hEq] at hPosted
      exact hLater.done (hInv.after i r' hPosted j hj)
  · intro r' i hr' hi hAt hNext
    rw [ne_eq, hSkipped] at hAt hNext
    rw [hFirst]
    exact hInv.alone r' i hr' hi hAt hNext
  · intro r' i hr' hi hNext
    rw [hFirst]
    exact hInv.linked r' i hr' hi ((hSkipped _ r').mp hNext)
  · intro r' i hr' hi hAll
    rw [hReleased.posted]
    by_cases hOld : ∀ j, j ≤ i → s.Done j r'
    · exact Or.inl (hInv.served r' i hr' hi hOld)
    · -- the task is new among those that are done
      right
      rw [not_forall] at hOld
      rcases hOld with ⟨j, hj⟩
      rw [Classical.not_imp] at hj
      have hEq : j = k ∧ r' = r := by
        by_contra hOther
        apply hj.2
        have hDone := hAll j hj.1
        unfold RegionState.Done at hDone ⊢
        rwa [hKeep j r' hOther] at hDone
      rcases hEq with ⟨rfl, rfl⟩
      rw [hIndex]
      apply hInv.run_of_skips hr hj.1 hi
      apply hInv.skips_of_done hNot _ hAll
      intro n hn hDone
      unfold RegionState.Done at hDone ⊢
      rwa [hKeep n r' (fun h => hn h.1)] at hDone

/-
  Where a task that skips a region stands: between the task
  below and the ones above that have skipped it.
-/
structure Skips
    (g : RegionGroup)
    (s s' : RegionState)
    (r n : Nat) : Prop where
  region : r ∈ g.regions
  task : n + 1 < g.size
  before : s.visit (n + 1) r = .before
  gap : ¬(s.visit n r = .posted ∧
    s.visit (n + 2) r = .skipped)
  visit : s'.visit = s.setVisit (n + 1) r .skipped

section Join

variable {n : Nat}
variable {l m : List Nat}
variable {parent : Nat → Option Nat}

theorem Skips.self
    (h : Skips g s s' r n) :
    s'.visit (n + 1) r = .skipped := by
  rw [h.visit]
  exact setVisit_self s (n + 1) r .skipped

theorem Skips.keep
    (h : Skips g s s' r n)
    {i r' : Nat}
    (hOther : ¬(i = n + 1 ∧ r' = r)) :
    s'.visit i r' = s.visit i r' := by
  rw [h.visit]
  exact setVisit_other s .skipped hOther

theorem Skips.done_other
    (h : Skips g s s' r n)
    {i r' : Nat}
    (hOther : ¬(i = n + 1 ∧ r' = r))
    (hDone : s'.Done i r') :
    s.Done i r' := by
  unfold RegionState.Done at hDone ⊢
  rwa [h.keep hOther] at hDone

theorem Skips.later
    (h : Skips g s s' r n) :
    s.Later s' :=
  later_setVisit (n + 1) r (by simp [h.before])
    (by simp [h.before]) h.visit

theorem Skips.not_done
    (h : Skips g s s' r n) :
    ¬s.Done (n + 1) r := by
  rw [RegionState.Done, h.before]
  simp

/-
  If all tasks below are done, the chain of the skipped
  channel goes to the end of that of the channel below.
-/
theorem WaitInv.appended_above
    (hInv : WaitInv g s)
    (hOwn : g.OwnSlots)
    (h : Skips g s s' r n)
    (hBelow : ∀ j, j ≤ n → s.Done j r)
    (hNone : s.board.first (g.slot r n) = none) :
    s.board.first (g.slot r (n + 1)) = none := by
  have hTask := h.task
  have hPosted : s.visit n r = .posted := by
    rcases hBelow n le_rfl with hPosted | hSkipped
    · exact hPosted
    · -- a task that skipped is in a chain with the one below
      cases n with
      | zero => exact absurd hSkipped (hInv.main r)
      | succ i =>
          rcases hInv.linked r i h.region (by omega)
            hSkipped with hEq | ⟨f, -, hFirst⟩
          · have hSame := (hOwn r r i (i + 1) h.region
              h.region (by omega) (by omega) hEq).2
            omega
          · rw [hNone] at hFirst
            cases hFirst
  apply hInv.alone r (n + 1) h.region hTask
  · rw [h.before]
    simp
  · intro hAbove
    exact h.gap ⟨hPosted, hAbove⟩

/- The channel of a slot that has a name. -/
theorem WaitInv.named
    (hInv : WaitInv g s)
    (hIndex : ∀ r k,
      s.board.index (g.channel r k) = g.slot r k)
    {r' i : Nat}
    (hr : r' ∈ g.regions)
    (hi : i < g.size)
    (hId : (s.board.channels (g.slot r' i)).id ≠ 0) :
    (s.board.channels (g.slot r' i)).id =
      g.channel r' i := by
  by_contra hOther
  apply hInv.free r' i hr hi
  unfold SwitchBoard.Taken
  rw [hIndex]
  exact ⟨hId, hOther⟩

/- If one slot of the two chains is posted, all below are done. -/
theorem WaitInv.below_of_posted
    (hInv : WaitInv g s)
    (hEntry : EntryInv g parent s)
    (h : Skips g s s' r n)
    {x : Nat}
    (hx : Chains.SameBlock s.board.first (g.slot r n) x ∨
      Chains.SameBlock s.board.first (g.slot r (n + 1)) x)
    (hPosted : (s.board.channels x).isPosted = true) :
    ∀ j, j ≤ n → s.Done j r := by
  have hTask := h.task
  have hIndex := hEntry.toChainsInv.index_eq
  rcases hx with hBelow | hAbove
  · rcases hEntry.ready x hPosted _ hBelow.symm with
      ⟨hId, hReady⟩
    exact hReady r n (by omega)
      (hInv.named hIndex h.region (by omega) hId)
  · -- the task would have skipped the region already
    rcases hEntry.ready x hPosted _ hAbove.symm with
      ⟨hId, hReady⟩
    have hDone := hReady r (n + 1) hTask
      (hInv.named hIndex h.region hTask hId) (n + 1) le_rfl
    exact absurd hDone h.not_done

/- What is done after the skip is posted. -/
theorem WaitInv.served_join
    (hInv : WaitInv g s)
    (hEntry : EntryInv g parent s)
    (hOwn : g.OwnSlots)
    (h : Skips g s s' r n)
    (hl : Chains.Cell s.board.first s.board.next l)
    (hm : Chains.Cell s.board.first s.board.next m)
    (hAppended : Appended s.board s'.board l m
      ((s.board.channels (g.slot r n)).isPosted ||
        (s.board.channels (g.slot r (n + 1))).isPosted))
    (hSides : g.slot r n ∈ l ∧ g.slot r (n + 1) ∈ m ∨
      g.slot r (n + 1) ∈ l ∧ g.slot r n ∈ m ∧
        s.board.first (g.slot r n) = none ∧
        s.board.first (g.slot r (n + 1)) ≠ none)
    {r' i : Nat}
    (hr' : r' ∈ g.regions)
    (hi : i < g.size)
    (hAll : ∀ j, j ≤ i → s'.Done j r') :
    (s'.board.channels (g.slot r' i)).isPosted = true := by
  have hTask := h.task
  have hFlag : (∀ j, j ≤ n → s.Done j r) →
      ∀ x, x ∈ m ∨ l.getLast? = some x →
        (s'.board.channels x).isPosted = true := by
    intro hBelow x hx
    rw [hAppended.posted_new x hx,
      hInv.served r n h.region (by omega) hBelow,
      Bool.true_or]
  by_cases hOld : ∀ j, j ≤ i → s.Done j r'
  · -- no flag is taken back
    have hPosted := hInv.served r' i hr' hi hOld
    by_cases hx : g.slot r' i ∈ m ∨
        l.getLast? = some (g.slot r' i)
    · apply hFlag _ _ hx
      apply hInv.below_of_posted hEntry h _ hPosted
      have hMember : g.slot r' i ∈ l ∨ g.slot r' i ∈ m := by
        rcases hx with hIn | hLast
        · exact Or.inr hIn
        · exact Or.inl (List.mem_of_getLast? hLast)
      rcases hSides with ⟨ha, hb⟩ | ⟨hb, ha, -⟩
      · exact hMember.imp (hl.mem_iff ha _).mp
          (hm.mem_iff hb _).mp
      · exact (hMember.imp (hl.mem_iff hb _).mp
          (hm.mem_iff ha _).mp).symm
    · rw [not_or] at hx
      rw [hAppended.posted_old _ hx.1 hx.2]
      exact hPosted
  · rw [not_forall] at hOld
    rcases hOld with ⟨j, hj⟩
    rw [Classical.not_imp] at hj
    have hEq : j = n + 1 ∧ r' = r := by
      by_contra hOther
      exact hj.2 (h.done_other hOther (hAll j hj.1))
    rcases hEq with ⟨rfl, rfl⟩
    have hBelow : ∀ j, j ≤ n → s.Done j r' := by
      intro j hLe
      exact h.done_other (by omega) (hAll j (by omega))
    have hRun := hInv.run_of_skips hr' hj.1 hi
      (hInv.skips_of_done h.not_done
        (fun n' hn' hDone =>
          h.done_other (fun hBoth => hn' hBoth.1) hDone)
        hAll)
    rcases hSides with ⟨-, hb⟩ | ⟨-, -, hNone, hSome⟩
    · exact hFlag hBelow _
        (Or.inl ((hm.mem_iff hb _).mpr hRun))
    · exact absurd
        (hInv.appended_above hOwn h hBelow hNone) hSome

theorem WaitInv.join
    (hInv : WaitInv g s)
    (hEntry : EntryInv g parent s)
    (hOwn : g.OwnSlots)
    (h : Skips g s s' r n)
    (hTask : s'.task = s.task)
    (hCall : chainSlots s.board (g.slot r n)
      (g.slot r (n + 1)) = some s'.board) :
    WaitInv g s' := by
  have hLt := h.task
  have hListed := hEntry.chained.listed
  have hSize : 0 < s.board.size := by
    have hLe := hEntry.toChainsInv.size_le
    omega
  have hTwo : ¬Chains.SameBlock s.board.first (g.slot r n)
      (g.slot r (n + 1)) := by
    intro hCase
    rcases hCase with hEq | ⟨f, hFirstA, hFirstB⟩
    · have hSame := (hOwn r r n (n + 1) h.region h.region
        (by omega) hLt hEq).2
      omega
    · rw [chainSlots_same hListed hSize hFirstA hFirstB]
        at hCall
      cases hCall
  rcases chainSlots_appended hListed hSize hTwo with
    ⟨board', l, m, hCall', hl, hm, hApart, hAppended,
      hSides⟩
  rw [hCall', Option.some.injEq] at hCall
  subst hCall
  rcases hAppended.joined with ⟨f, hJoined⟩
  have hBoth : (g.slot r n ∈ l ∨ g.slot r n ∈ m) ∧
      (g.slot r (n + 1) ∈ l ∨ g.slot r (n + 1) ∈ m) := by
    rcases hSides with ⟨ha, hb, -⟩ | ⟨hb, ha, -⟩
    · exact ⟨Or.inl ha, Or.inr hb⟩
    · exact ⟨Or.inr ha, Or.inl hb⟩
  refine ⟨?_, ?_, ?_, ?_, ?_, ?_, ?_⟩
  · rw [hTask]
    exact hInv.idle
  · intro r' i hr' hi hTaken
    apply hInv.free r' i hr' hi
    unfold SwitchBoard.Taken SwitchBoard.index at hTaken ⊢
    rwa [hAppended.size, hAppended.ids] at hTaken
  · intro r' hSkipped
    rw [h.keep (by omega)] at hSkipped
    exact hInv.main r' hSkipped
  · intro i r' hPosted j hj
    have hOther : ¬(i = n + 1 ∧ r' = r) := by
      rintro ⟨rfl, rfl⟩
      rw [h.self] at hPosted
      cases hPosted
    rw [h.keep hOther] at hPosted
    exact h.later.done (hInv.after i r' hPosted j hj)
  · intro r' i hr' hi hAt hNext
    have hSelf : ¬(i = n + 1 ∧ r' = r) := by
      rintro ⟨rfl, rfl⟩
      exact hAt h.self
    have hAbove : ¬(i + 1 = n + 1 ∧ r' = r) := by
      rintro ⟨hEq, rfl⟩
      rw [hEq] at hNext
      exact hNext h.self
    rw [h.keep hSelf] at hAt
    rw [h.keep hAbove] at hNext
    have hNone := hInv.alone r' i hr' hi hAt hNext
    rw [hJoined.first_eq, if_neg]
    · exact hNone
    · -- a slot by itself is neither of the two
      intro hIn
      have hNot : ∀ j, j = n ∨ j = n + 1 →
          g.slot r' i ≠ g.slot r j := by
        intro j hj hEq
        have hSame := hOwn r' r i j hr' h.region hi
          (by omega) hEq
        rcases hj with rfl | rfl
        · exact hAbove ⟨by omega, hSame.1⟩
        · exact hSelf ⟨hSame.2, hSame.1⟩
      have hCell : ∀ c,
          Chains.Cell s.board.first s.board.next c →
            g.slot r' i ∈ c → ∀ x ∈ c, g.slot r' i = x := by
        intro c hc hMem x hx
        rw [hc.eq_singleton hMem hNone,
          List.mem_singleton] at hx
        exact hx.symm
      rcases hSides with ⟨ha, hb, -⟩ | ⟨hb, ha, -⟩
      · rcases hIn with hIn | hIn
        · exact hNot n (Or.inl rfl) (hCell l hl hIn _ ha)
        · exact hNot _ (Or.inr rfl) (hCell m hm hIn _ hb)
      · rcases hIn with hIn | hIn
        · exact hNot _ (Or.inr rfl) (hCell l hl hIn _ hb)
        · exact hNot n (Or.inl rfl) (hCell m hm hIn _ ha)
  · intro r' i hr' hi hNext
    rw [Chains.sameBlock_join_iff hListed.listed hl hm hApart
      hJoined]
    by_cases hEq : i + 1 = n + 1 ∧ r' = r
    · rcases hEq with ⟨hEq, rfl⟩
      have hi' : i = n := by omega
      subst hi'
      exact Or.inr hBoth
    · rw [h.keep hEq] at hNext
      exact Or.inl (hInv.linked r' i hr' hi hNext)
  · intro r' i hr' hi hAll
    refine hInv.served_join hEntry hOwn h hl hm hAppended ?_
      hr' hi hAll
    rcases hSides with ⟨ha, hb, -⟩ | hSides
    · exact Or.inl ⟨ha, hb⟩
    · exact Or.inr hSides

end Join

end Invariant

------------------------------------------------------------
-- The Steps
------------------------------------------------------------

section Waits

variable {g : RegionGroup}
variable {s s' : RegionState}
variable {parent : Nat → Option Nat}
variable {r k : Nat}

/- Visits that begin or pass a region are not seen. -/
theorem visits_quiet
    {v : Visit}
    (hOld : s.visit k r ≠ .posted ∧ s.visit k r ≠ .skipped)
    (hNew : v ≠ .posted ∧ v ≠ .skipped)
    (h : s'.visit = s.setVisit k r v) :
    ∀ i r' w, w = .posted ∨ w = .skipped →
      (s'.visit i r' = w ↔ s.visit i r' = w) := by
  intro i r' w hw
  rw [h]
  by_cases hEq : i = k ∧ r' = r
  · rcases hEq with ⟨rfl, rfl⟩
    rw [setVisit_self]
    rcases hw with rfl | rfl
    · exact iff_of_false hNew.1 hOld.1
    · exact iff_of_false hNew.2 hOld.2
  · rw [setVisit_other s v hEq]

/- A step that leaves the local channels of the others. -/
theorem WaitInv.idle_update
    (hInv : WaitInv g s)
    {t : TaskData}
    (hTask : s'.task = Function.update s.task k t)
    (hLocal : t.localCh.id = 0) :
    ∀ i, (s'.task i).localCh.id = 0 := by
  intro i
  rw [hTask]
  by_cases hi : i = k
  · subst hi
    rw [Function.update_self]
    exact hLocal
  · rw [Function.update_of_ne hi]
    exact hInv.idle i

theorem bopOrderedBegin_localCh
    {status : TaskStatus}
    {id gs pprIndex : Nat}
    {board : SwitchBoard}
    {t t' : TaskData}
    (h : bopOrderedBegin status id gs pprIndex board t =
      some (.ret t')) :
    t'.localCh = t.localCh := by
  unfold bopOrderedBegin at h
  split at h
  · cases h
    rfl
  · rw [Option.map_eq_some_iff] at h
    rcases h with ⟨waited, -, hRet⟩
    rw [Outcome.bind_eq_ret_iff] at hRet
    rcases hRet with ⟨⟨received, mem⟩, -, hRet⟩
    cases hRet
    rfl

/- Filling keeps the channel, or takes it. -/
theorem serves_of_fills
    {status : TaskStatus}
    {id : Nat}
    {ranges : List (MemRange Bytes)}
    {ch ch' : LocalChannel}
    (hServes : ch.Serves id)
    (h : ranges.foldlM
      (fun ch r => channelFill status id ch r.base r.size)
      ch = .ret ch') :
    ch'.Serves id := by
  induction ranges generalizing ch with
  | nil =>
      cases h
      exact hServes
  | cons range ranges ih =>
      rw [List.foldlM_cons, Outcome.bind_eq_ret_iff] at h
      rcases h with ⟨next, hFill, hRest⟩
      refine ih ?_ hRest
      rcases channelFill_inv hFill with
        ⟨-, rfl⟩ | ⟨-, -, -, -, hOwn, -⟩
      · exact hServes
      · exact Or.inr hOwn

/- `BOP_ordered_end` posts, and leaves no local channel. -/
theorem bopOrderedEnd_posts
    {status : TaskStatus}
    {id gs pprIndex : Nat}
    {board board' : SwitchBoard}
    {t t' : TaskData}
    (hIn : t.Inside id)
    (hLocal : t.localCh.id = 0)
    (hStatus : status.aside = false)
    (hBoard : board.Listed)
    (hSize : 0 < board.size)
    (hFree : ¬board.Taken (channelForRegion id gs pprIndex))
    (hClear : (board.channels (board.index
      (channelForRegion id gs pprIndex))).isPosted = false)
    (h : bopOrderedEnd status id gs pprIndex board t =
      .ret (board', t')) :
    Released board board' (channelForRegion id gs pprIndex) ∧
      t'.localCh.id = 0 := by
  have hTest : t.inOrderedRegion = true ∧
      t.orderedRegionId = id := hIn
  unfold bopOrderedEnd at h
  rw [if_pos hTest] at h
  simp only [Outcome.bind_eq_ret_iff] at h
  rcases h with
    ⟨localCh, hFills, ⟨board₁, localCh', writeMap'⟩, hPost, h⟩
  cases h
  have hPosts : Posts status localCh
      (channelForRegion id gs pprIndex) board :=
    ⟨hStatus, serves_of_fills (Or.inl hLocal) hFills, hFree,
      hClear⟩
  refine ⟨channelPost_released hBoard hSize hPosts hPost, ?_⟩
  rcases channelPost_inv hPost with
    ⟨hIgnored, -⟩ |
    ⟨-, data, -, ⟨hRejected, -⟩ | ⟨-, -, -, hReset⟩⟩
  · exact absurd hIgnored
      (not_ignored hPosts.status hPosts.serves)
  · exact absurd hPosts hRejected.not_posts
  · change localCh'.id = 0
    rw [hReset]
    rfl

/- The channel of a task that is not done is not posted. -/
theorem WaitInv.not_posted
    (hInv : WaitInv g s)
    (hEntry : EntryInv g parent s)
    (hr : r ∈ g.regions)
    (hk : k < g.size)
    {j : Nat}
    (hj : j ≤ k)
    (hNot : ¬s.Done j r) :
    (s.board.channels (g.slot r k)).isPosted = false := by
  rw [← Bool.not_eq_true]
  intro hPosted
  rcases hEntry.ready _ hPosted _ (Or.inl rfl) with
    ⟨hId, hReady⟩
  have hName := hInv.named hEntry.toChainsInv.index_eq hr hk
    hId
  exact hNot (hReady r k hk hName j hj)

theorem WaitInv.enter
    (hInv : WaitInv g s)
    (hStep : regionStep g s (.enter k r) = some s') :
    WaitInv g s' := by
  rcases enter_cases hStep with
    ⟨⟨hk, hr, hVisit⟩, t', hBegin, rfl⟩
  refine hInv.quiet rfl ?_ (visits_quiet (by simp [hVisit])
    (by simp) rfl)
  apply hInv.idle_update rfl
  rw [bopOrderedBegin_localCh hBegin]
  exact hInv.idle k

theorem WaitInv.leave
    (hInv : WaitInv g s)
    (hEntry : EntryInv g parent s)
    (hOwn : g.OwnSlots)
    (hStep : regionStep g s (.leave k r) = some s') :
    WaitInv g s' := by
  rcases leave_cases hStep with
    ⟨⟨hk, hr, hVisit⟩, board', t', hEnd, rfl⟩
  by_cases hIn : (s.task k).Inside r
  · have hIndex := hEntry.toChainsInv.index_eq
    have hSize : 0 < s.board.size := by
      have hLe := hEntry.toChainsInv.size_le
      omega
    have hNot : ¬s.Done k r := by
      rw [RegionState.Done, hVisit]
      simp
    have hClear := hInv.not_posted hEntry hr hk le_rfl hNot
    have hFree := hInv.free r k hr hk
    rw [← hIndex] at hClear
    rw [← g.channelForRegion_eq hr hk] at hClear hFree
    rcases bopOrderedEnd_posts hIn (hInv.idle k)
        (status_aside k) hEntry.chained.listed hSize hFree
        hClear hEnd with ⟨hReleased, hLocal⟩
    rw [g.channelForRegion_eq hr hk] at hReleased
    apply hInv.post hOwn hIndex hr hk hVisit
      (hEntry.inside k r hk hIn) hReleased
    · exact hInv.idle_update rfl hLocal
    · simp only [if_pos hIn]
  · -- the call is ignored
    rcases bopOrderedEnd_cases hEnd with
      ⟨-, rfl, rfl⟩ | ⟨hInside, -⟩
    · refine hInv.quiet rfl ?_ ?_
      · exact hInv.idle_update rfl (hInv.idle k)
      · apply visits_quiet (k := k) (r := r) (v := .passed)
        · simp [hVisit]
        · simp
        · simp only [if_neg hIn]
    · exact absurd hInside hIn

theorem WaitInv.skip
    (hInv : WaitInv g s)
    (hEntry : EntryInv g parent s)
    (hOwn : g.OwnSlots)
    (hOk : Disciplined s (.skip k r))
    (hStep : regionStep g s (.skip k r) = some s') :
    WaitInv g s' := by
  rcases skip_cases hStep with
    ⟨⟨hk, hr, hVisit⟩, board', hSkip, rfl⟩
  rcases hOk with ⟨hMain, hGap⟩
  obtain ⟨n, rfl⟩ := Nat.exists_eq_succ_of_ne_zero hMain
  have hn : n < g.size := by omega
  have hPred : g.channel r (n + 1) - 1 = g.channel r n := rfl
  have hIndex := hEntry.toChainsInv.index_eq
  -- both channels get their slots
  have hInv₁ := hInv.allocate hOwn hIndex hr hn
  have hIndex₁ : ∀ r' k', (s.board.allocate
      (g.channel r n)).index (g.channel r' k') =
        g.slot r' k' := by
    intro r' k'
    rw [s.board.allocate_index]
    exact hIndex r' k'
  have hInv₂ := hInv₁.allocate hOwn hIndex₁ hr hk
  have hEntry₂ := (hEntry.allocate (g.channel r n)).allocate
    (g.channel r (n + 1))
  unfold bopOrderedSkip at hSkip
  simp only [g.channelForRegion_eq hr hk,
    g.channel_pred hr hk, hPred] at hSkip
  rw [channelChain_eq _ _ _ (status_aside _), if_neg,
    Outcome.ofOption_eq_ret_iff, hIndex, hIndex] at hSkip
  · refine hInv₂.join hEntry₂ hOwn ⟨hr, hk, hVisit, hGap, rfl⟩
      rfl hSkip
  · rintro (hTaken | hTaken)
    · exact hInv.free r n hr hn hTaken
    · exact hInv₁.free r (n + 1) hr hk hTaken

theorem WaitInv.work
    (hInv : WaitInv g s)
    {f : TaskData → TaskData}
    (hOk : Disciplined s (.work k f))
    (hStep : regionStep g s (.work k f) = some s') :
    WaitInv g s' := by
  unfold regionStep at hStep
  cases hStep
  refine hInv.quiet rfl ?_ (fun _ _ _ _ => Iff.rfl)
  apply hInv.idle_update rfl
  change (f (s.task k)).localCh.id = 0
  rw [hOk]
  exact hInv.idle k

theorem waitInv_start (g : RegionGroup) :
    WaitInv g (regionMachine g).start := by
  refine ⟨fun _ => rfl, ?_, ?_, ?_, fun _ _ _ _ _ _ => rfl,
    ?_, ?_⟩
  · intro r k _ _ hTaken
    exact hTaken.1 rfl
  · intro r hVisit
    cases hVisit
  · intro k r hVisit
    cases hVisit
  · intro r k _ _ hVisit
    cases hVisit
  · intro r k _ _ hAll
    rcases hAll 0 (Nat.zero_le k) with hVisit | hVisit
    · cases hVisit
    · cases hVisit

theorem waitInv_of_reachable
    (hOwn : g.OwnSlots)
    (hReach : (regionMachine g).Reachable Disciplined s) :
    WaitInv g s := by
  apply hReach.invariant (WaitInv g)
  · exact waitInv_start g
  · intro s call s' hReach hInv hOk hStep
    rcases entryInv_of_reachable hReach.any with
      ⟨parent, hEntry⟩
    cases call with
    | enter k r => exact hInv.enter hStep
    | leave k r => exact hInv.leave hEntry hOwn hStep
    | skip k r => exact hInv.skip hEntry hOwn hOk hStep
    | work k f => exact hInv.work hOk hStep

end Waits

------------------------------------------------------------
-- Waiting
------------------------------------------------------------

/- Outside of regions the call waits for the slot's flag. -/
theorem bopOrderedBegin_eq_none_iff
    {status : TaskStatus}
    {id gs pprIndex : Nat}
    {board : SwitchBoard}
    {t : TaskData} :
    bopOrderedBegin status id gs pprIndex board t = none ↔
      t.inOrderedRegion = false ∧ status = .spec ∧
        (board.channels (board.index (addrSub
          (channelForRegion id gs pprIndex) 1))).isPosted =
            false := by
  unfold bopOrderedBegin
  cases t.inOrderedRegion with
  | true => simp
  | false =>
      simp only [Bool.false_eq_true, if_false,
        Option.map_eq_none_iff, true_and]
      unfold channelWait
      by_cases hSpec : status = .spec
      · simp only [hSpec, ne_eq, not_true_eq_false, if_false,
          true_and]
        cases (board.channels (board.index (addrSub
          (channelForRegion id gs pprIndex) 1))).isPosted with
        | false => simp
        | true => simp [ite_eq_iff]
      · simp [hSpec]

section Exactly

variable {g : RegionGroup}
variable {s : RegionState}
variable {parent : Nat → Option Nat}
variable {r k : Nat}

/- The wait of a task outside of ordered regions. -/
theorem WaitInv.waits_iff
    (hInv : WaitInv g s)
    (hEntry : EntryInv g parent s)
    (hk : k < g.size)
    (hr : r ∈ g.regions)
    (hOutside : (s.task k).inOrderedRegion = false) :
    bopOrderedBegin (OrderedGroup.status k) r g.size
        (g.pprIndex + k) s.board (s.task k) = none ↔
      ∃ j, j < k ∧ ¬s.Done j r := by
  rw [bopOrderedBegin_eq_none_iff,
    g.channelForRegion_eq hr hk, g.channel_pred hr hk]
  cases k with
  | zero => simp [OrderedGroup.status]
  | succ n =>
      have hPred : g.channel r (n + 1) - 1 = g.channel r n :=
        rfl
      have hSpec : OrderedGroup.status (n + 1) = .spec := rfl
      rw [hPred, hEntry.toChainsInv.index_eq]
      constructor
      · rintro ⟨-, -, hClear⟩
        by_contra hNone
        rw [hInv.served r n hr (by omega)] at hClear
        · cases hClear
        · intro j hj
          by_contra hNot
          exact hNone ⟨j, by omega, hNot⟩
      · rintro ⟨j, hj, hNot⟩
        exact ⟨hOutside, hSpec, hInv.not_posted hEntry hr
          (by omega) (Nat.le_of_lt_succ hj) hNot⟩

/- The first task that is not done with all regions. -/
theorem WaitInv.exists_waits_for_nobody
    (hInv : WaitInv g s)
    (hEntry : EntryInv g parent s)
    (hSome : ∃ k, k < g.size ∧
      ∃ r ∈ g.regions, ¬s.Done k r) :
    ∃ k, k < g.size ∧ (∃ r ∈ g.regions, ¬s.Done k r) ∧
      ∀ r ∈ g.regions,
        bopOrderedBegin (OrderedGroup.status k) r g.size
          (g.pprIndex + k) s.board (s.task k) ≠ none := by
  classical
  have hFirst := Nat.find_spec hSome
  refine ⟨Nat.find hSome, hFirst.1, hFirst.2, ?_⟩
  intro r hr hWaits
  have hOutside := (bopOrderedBegin_eq_none_iff.mp hWaits).1
  rcases (hInv.waits_iff hEntry hFirst.1 hr hOutside).mp
    hWaits with ⟨j, hj, hNot⟩
  have hLt := hFirst.1
  exact Nat.find_min hSome hj ⟨by omega, r, hr, hNot⟩

end Exactly

/- A group of five tasks and one region. -/
def fiveTasks : RegionGroup where
  size := 5
  pprIndex := 1
  boardSize := 0
  memory := fun _ => 0
  regions := [0]
  pos := Nat.one_pos
  fits := by decide

/-
  The tasks after the first skip the region, the last of
  them first. The fifth task waits all the same.
-/
example :
    ((regionMachine fiveTasks).exec
        (regionMachine fiveTasks).start
        [.enter 0 0, .leave 0 0, .skip 3 0, .skip 2 0,
          .skip 1 0]).any
      (fun s => (bopOrderedBegin .spec 0 5 5 s.board
        (s.task 4)).isNone) = true := by
  rfl

/- MAIN skips the region, and the second task waits. -/
example :
    ((regionMachine threeTasks).exec
        (regionMachine threeTasks).start [.skip 0 0]).any
      (fun s => (bopOrderedBegin .spec 0 3 2 s.board
        (s.task 1)).isNone) = true := by
  rfl

end Cbop
