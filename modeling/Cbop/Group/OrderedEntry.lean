import Cbop.Group.Ordered
import Cbop.PostWait.Chain

/-
  The order in which the tasks of a group enter ordered
  regions, after `bop_ordered.c`.

  A task that skips a region chains its channel to that of
  the task before it. The channels of all regions share the
  board, with the last channel of one region next to the
  first of the region after it, so that a chain may run
  through several regions. It never lets a task in early:
  every channel of a chain but the lowest was skipped by its
  task, and only the lowest is posted.

  Main declarations:
    * `bopOrderedSkip`
    * `RegionGroup`, `regionMachine`
    * `EntryInv`
    * `entered_in_order`
-/

namespace Cbop

------------------------------------------------------------
-- The Machine
------------------------------------------------------------

/- `BOP_ordered_skip`. -/
def bopOrderedSkip
    (status : TaskStatus)
    (id gs pprIndex : Nat)
    (board : SwitchBoard) :
    Outcome SwitchBoard :=
  let myCh := channelForRegion id gs pprIndex
  channelChain status (addrSub myCh 1) myCh board

/-
  A group of `size` tasks and the ordered regions of its
  program. Task `k` has index `pprIndex + k`, and the first
  index of a program is 1. The channels' ids do not wrap.
-/
structure RegionGroup where
  size : Nat
  pprIndex : Nat
  boardSize : Nat
  memory : Memory
  regions : List Nat
  pos : 0 < pprIndex
  fits : ∀ r ∈ regions, r * size + pprIndex + size ≤ 2 ^ 64

/-
  How far a task is with a region. It has `passed` it when
  its `BOP_ordered_end` was ignored, which happens when the
  task was inside another region before.
-/
inductive Visit where
| before
| begun
| posted
| passed
| skipped
deriving DecidableEq, Repr

structure RegionState where
  board : SwitchBoard
  task : Nat → TaskData
  visit : Nat → Nat → Visit

/-
  What a task does next: a call for the region `r`, or any
  work between the calls.
-/
inductive RegionCall where
| enter (k r : Nat)
| leave (k r : Nat)
| skip (k r : Nat)
| work (k : Nat) (f : TaskData → TaskData)

def RegionState.setVisit
    (s : RegionState)
    (k r : Nat)
    (v : Visit) :
    Nat → Nat → Visit :=
  Function.update s.visit k
    (Function.update (s.visit k) r v)

/- Each task calls for a region as the region is visited. -/
def RegionGroup.May
    (g : RegionGroup)
    (s : RegionState)
    (k r : Nat)
    (v : Visit) : Prop :=
  k < g.size ∧ r ∈ g.regions ∧ s.visit k r = v

instance
    (g : RegionGroup)
    (s : RegionState)
    (k r : Nat)
    (v : Visit) :
    Decidable (g.May s k r v) :=
  inferInstanceAs (Decidable (_ ∧ _ ∧ _))

/- The task is inside this region. -/
def TaskData.Inside (t : TaskData) (r : Nat) : Prop :=
  t.inOrderedRegion = true ∧ t.orderedRegionId = r

instance (t : TaskData) (r : Nat) : Decidable (t.Inside r) :=
  inferInstanceAs (Decidable (_ ∧ _))

/-
  A call that waits, aborts or does not return is no step.
  Work leaves it to the calls to enter and leave regions.
-/
def regionStep
    (g : RegionGroup)
    (s : RegionState) :
    RegionCall → Option RegionState
| .enter k r =>
    if g.May s k r .before then
      match bopOrderedBegin (OrderedGroup.status k) r g.size
          (g.pprIndex + k) s.board (s.task k) with
      | some (.ret t) =>
          some { s with
            task := Function.update s.task k t
            visit := s.setVisit k r .begun }
      | _ => none
    else none
| .leave k r =>
    if g.May s k r .begun then
      match bopOrderedEnd (OrderedGroup.status k) r g.size
          (g.pprIndex + k) s.board (s.task k) with
      | .ret (board, t) =>
          some { s with
            board := board
            task := Function.update s.task k t
            visit := s.setVisit k r
              (if (s.task k).Inside r then .posted
                else .passed) }
      | _ => none
    else none
| .skip k r =>
    if g.May s k r .before then
      match bopOrderedSkip (OrderedGroup.status k) r g.size
          (g.pprIndex + k) s.board with
      | .ret board =>
          some { s with
            board := board
            visit := s.setVisit k r .skipped }
      | _ => none
    else none
| .work k f =>
    some { s with
      task := Function.update s.task k
        { f (s.task k) with
          inOrderedRegion := (s.task k).inOrderedRegion
          orderedRegionId := (s.task k).orderedRegionId } }

/- The group from its initialisation on. -/
def regionMachine (g : RegionGroup) :
    Machine RegionState RegionCall where
  start :=
    { board := postwaitInit g.boardSize g.size
      task := fun _ => pprTaskInit g.memory
      visit := fun _ _ => .before }
  step := regionStep g

------------------------------------------------------------
-- Channels and Tasks
------------------------------------------------------------

section Channels

variable {g : RegionGroup}

/- The channel of task `k` in region `r`. -/
def RegionGroup.channel (g : RegionGroup) (r k : Nat) : Nat :=
  r * g.size + g.pprIndex + k

theorem RegionGroup.channelForRegion_eq
    (g : RegionGroup)
    {r k : Nat}
    (hr : r ∈ g.regions)
    (hk : k < g.size) :
    channelForRegion r g.size (g.pprIndex + k) =
      g.channel r k := by
  have hFits := g.fits r hr
  unfold channelForRegion RegionGroup.channel
  rw [Nat.mod_eq_of_lt (by omega)]
  omega

theorem RegionGroup.channel_pred
    (g : RegionGroup)
    {r k : Nat}
    (hr : r ∈ g.regions)
    (hk : k < g.size) :
    addrSub (g.channel r k) 1 = g.channel r k - 1 := by
  have hFits := g.fits r hr
  have hPos := g.pos
  unfold RegionGroup.channel
  exact addrSub_of_le (by omega) (by omega)

/- A channel belongs to one task in one region. -/
theorem RegionGroup.channel_inj
    (g : RegionGroup)
    {r k r' k' : Nat}
    (hk : k < g.size)
    (hk' : k' < g.size)
    (h : g.channel r k = g.channel r' k') :
    r = r' ∧ k = k' := by
  unfold RegionGroup.channel at h
  have hSum : k + g.size * r = k' + g.size * r' := by
    rw [Nat.mul_comm g.size r, Nat.mul_comm g.size r']
    omega
  have hPos : 0 < g.size := by omega
  have hDiv := congrArg (fun n => n / g.size) hSum
  have hMod := congrArg (fun n => n % g.size) hSum
  simp only [Nat.add_mul_div_left _ _ hPos,
    Nat.add_mul_mod_self_left, Nat.div_eq_of_lt hk,
    Nat.div_eq_of_lt hk', Nat.mod_eq_of_lt hk,
    Nat.mod_eq_of_lt hk', Nat.zero_add] at hDiv hMod
  exact ⟨hDiv, hMod⟩

end Channels

------------------------------------------------------------
-- The Invariant
------------------------------------------------------------

section Invariant

/- The task has posted for the region, or skipped it. -/
def RegionState.Done (s : RegionState) (k r : Nat) : Prop :=
  s.visit k r = .posted ∨ s.visit k r = .skipped

/- The owner of the channel and all before it are done. -/
def RegionGroup.Ready
    (g : RegionGroup)
    (s : RegionState)
    (e : Nat) : Prop :=
  ∀ r k, k < g.size → e = g.channel r k →
    ∀ j, j ≤ k → s.Done j r

/- The owner of the channel has skipped the region. -/
def RegionGroup.Skipped
    (g : RegionGroup)
    (s : RegionState)
    (e : Nat) : Prop :=
  ∃ r k, k < g.size ∧ e = g.channel r k ∧
    s.visit k r = .skipped

/-
  Every slot of a chain but the lowest has a parent: the slot
  of the channel below its own, to which its owner chained
  it. Below channel 1 there is slot 0, whose channel may be
  any.
-/
structure ChainsInv
    (g : RegionGroup)
    (parent : Nat → Option Nat)
    (s : RegionState) : Prop where
  size : s.board.size =
    (postwaitInit g.boardSize g.size).size
  chained : s.board.Chained
  parents : ∀ t u, parent t = some u →
    g.Skipped s (s.board.channels t).id ∧
      ((s.board.channels u).id =
          (s.board.channels t).id - 1 ∨
        (s.board.channels t).id = 1)
  classes : ∀ t u,
    Chains.SameBlock s.board.first t u ↔
      Relation.EqvGen (fun t u => parent t = some u) t u

/-
  If a slot of a chain is posted, all channels of the chain
  are ready. A task inside a region came after the others.
-/
structure EntryInv
    (g : RegionGroup)
    (parent : Nat → Option Nat)
    (s : RegionState) : Prop
    extends ChainsInv g parent s where
  ready : ∀ t, (s.board.channels t).isPosted = true →
    ∀ u, Chains.SameBlock s.board.first t u →
      (s.board.channels u).id ≠ 0 ∧
        g.Ready s (s.board.channels u).id
  inside : ∀ k r, k < g.size → (s.task k).Inside r →
    ∀ j, j < k → s.Done j r

variable {g : RegionGroup}
variable {s s' : RegionState}
variable {parent : Nat → Option Nat}

/- What is done stays done. -/
def RegionState.Later (s s' : RegionState) : Prop :=
  ∀ k r v, v = .posted ∨ v = .skipped →
    s.visit k r = v → s'.visit k r = v

theorem later_of_eq
    (h : s'.visit = s.visit) :
    s.Later s' := by
  intro k r v _ hVisit
  rw [h]
  exact hVisit

theorem later_setVisit
    (k r : Nat)
    {v : Visit}
    (hPosted : s.visit k r ≠ .posted)
    (hSkipped : s.visit k r ≠ .skipped)
    (h : s'.visit = s.setVisit k r v) :
    s.Later s' := by
  intro k' r' v' hv hVisit
  have hNot : s.visit k r ≠ v' := by
    rcases hv with rfl | rfl
    · exact hPosted
    · exact hSkipped
  rw [h]
  unfold RegionState.setVisit
  by_cases hk : k' = k
  · subst hk
    rw [Function.update_self]
    by_cases hr : r' = r
    · subst hr
      exact absurd hVisit hNot
    · rw [Function.update_of_ne hr]
      exact hVisit
  · rw [Function.update_of_ne hk]
    exact hVisit

theorem RegionState.Later.done
    (h : s.Later s')
    {k r : Nat}
    (hDone : s.Done k r) :
    s'.Done k r := by
  rcases hDone with hPosted | hSkipped
  · exact Or.inl (h k r _ (Or.inl rfl) hPosted)
  · exact Or.inr (h k r _ (Or.inr rfl) hSkipped)

theorem RegionState.Later.ready
    (h : s.Later s')
    {e : Nat}
    (hReady : g.Ready s e) :
    g.Ready s' e := by
  intro r k hk he j hj
  exact h.done (hReady r k hk he j hj)

theorem RegionState.Later.skipped
    (h : s.Later s')
    {e : Nat}
    (hSkipped : g.Skipped s e) :
    g.Skipped s' e := by
  rcases hSkipped with ⟨r, k, hk, he, hVisit⟩
  exact ⟨r, k, hk, he, h k r _ (Or.inr rfl) hVisit⟩

/- A skipped channel is ready if the one below is. -/
theorem ready_of_below
    {e : Nat}
    (hSkipped : g.Skipped s e)
    (hBelow : g.Ready s (e - 1) ∨ e = 1) :
    g.Ready s e := by
  rcases hSkipped with ⟨r, k, hk, he, hVisit⟩
  intro r' k' hk' he' j hj
  rcases g.channel_inj hk hk' (he.symm.trans he') with
    ⟨rfl, rfl⟩
  by_cases hjk : j = k
  · exact hjk ▸ Or.inr hVisit
  · -- the channel below belongs to the same region
    have hPos := g.pos
    unfold RegionGroup.channel at he
    rcases hBelow with hReady | hOne
    · refine hReady r (k - 1) (by omega) ?_ j (by omega)
      unfold RegionGroup.channel
      omega
    · omega

/- The chain above a slot without a parent is ready with it. -/
theorem ChainsInv.ready_of_root
    (hInv : ChainsInv g parent s)
    {root : Nat}
    (hRoot : parent root = none)
    (hId : (s.board.channels root).id ≠ 0)
    (hReady : g.Ready s (s.board.channels root).id)
    {u : Nat}
    (hSame : Chains.SameBlock s.board.first root u) :
    (s.board.channels u).id ≠ 0 ∧
      g.Ready s (s.board.channels u).id := by
  have hPath := Chains.reaches_root hRoot
    ((hInv.classes root u).mp hSame)
  clear hSame
  -- along the parents, from the root upwards
  induction hPath using
      Relation.ReflTransGen.head_induction_on with
  | refl => exact ⟨hId, hReady⟩
  | head hParent _ ih =>
      rcases hInv.parents _ _ hParent with ⟨hSkipped, hBelow⟩
      constructor
      · rcases hSkipped with ⟨r, k, _, he, _⟩
        have hPos := g.pos
        unfold RegionGroup.channel at he
        omega
      · apply ready_of_below hSkipped
        rcases hBelow with hEq | hOne
        · rw [← hEq]
          exact Or.inl ih.2
        · exact Or.inr hOne

/- A step that leaves the board alone. -/
theorem ChainsInv.later
    (hInv : ChainsInv g parent s)
    (hLater : s.Later s')
    (hBoard : s'.board = s.board) :
    ChainsInv g parent s' := by
  constructor
  · rw [hBoard]
    exact hInv.size
  · rw [hBoard]
    exact hInv.chained
  · intro t u hParent
    rw [hBoard]
    rcases hInv.parents t u hParent with ⟨hSkipped, hBelow⟩
    exact ⟨hLater.skipped hSkipped, hBelow⟩
  · rw [hBoard]
    exact hInv.classes

theorem EntryInv.later
    (hInv : EntryInv g parent s)
    (hLater : s.Later s')
    (hBoard : s'.board = s.board)
    (hInside : ∀ k r, k < g.size → (s'.task k).Inside r →
      ∀ j, j < k → s'.Done j r) :
    EntryInv g parent s' := by
  refine ⟨hInv.toChainsInv.later hLater hBoard, ?_, hInside⟩
  rw [hBoard]
  intro t hPosted u hSame
  rcases hInv.ready t hPosted u hSame with ⟨hId, hReady⟩
  exact ⟨hId, hLater.ready hReady⟩

/- Allocating a slot changes nothing of it. -/
theorem EntryInv.allocate
    (hInv : EntryInv g parent s)
    (e : Nat) :
    EntryInv g parent
      { s with board := s.board.allocate e } := by
  have hKeeps : ∀ t, (s.board.channels t).id ≠ 0 →
      ((s.board.allocate e).channels t).id =
        (s.board.channels t).id :=
    fun t => s.board.allocate_id_keeps e
  constructor
  · constructor
    · rw [← hInv.size]
      exact s.board.allocate_size e
    · exact hInv.chained.allocate e
    · intro t u hParent
      rcases hInv.parents t u hParent with ⟨hSkipped, hBelow⟩
      have hId : (s.board.channels t).id ≠ 0 := by
        rcases hSkipped with ⟨r, k, _, he, _⟩
        have hPos := g.pos
        unfold RegionGroup.channel at he
        omega
      change g.Skipped s
          ((s.board.allocate e).channels t).id ∧
        (((s.board.allocate e).channels u).id =
            ((s.board.allocate e).channels t).id - 1 ∨
          ((s.board.allocate e).channels t).id = 1)
      rw [hKeeps t hId]
      refine ⟨hSkipped, ?_⟩
      by_cases hOne : (s.board.channels t).id = 1
      · exact Or.inr hOne
      · left
        have hEq := hBelow.resolve_right hOne
        rw [hKeeps u (by omega), hEq]
    · intro t u
      simp only [s.board.allocate_first]
      exact hInv.classes t u
  · intro t hPosted u hSame
    simp only [s.board.allocate_isPosted] at hPosted
    simp only [s.board.allocate_first] at hSame
    rcases hInv.ready t hPosted u hSame with ⟨hId, hReady⟩
    simp only [hKeeps u hId]
    exact ⟨hId, hReady⟩
  · exact hInv.inside

/- A slot whose owner has not skipped has no parent. -/
theorem ChainsInv.root
    (hInv : ChainsInv g parent s)
    {r k t : Nat}
    (hk : k < g.size)
    (hId : (s.board.channels t).id = g.channel r k)
    (hVisit : s.visit k r ≠ .skipped) :
    parent t = none := by
  cases hParent : parent t with
  | none => rfl
  | some u =>
      rcases hInv.parents t u hParent with
        ⟨⟨r', k', hk', he, hSkipped⟩, _⟩
      rcases g.channel_inj hk hk' (hId.symm.trans he) with
        ⟨rfl, rfl⟩
      exact absurd hSkipped hVisit

/- A post by a task that came after the others. -/
theorem EntryInv.post
    (hInv : EntryInv g parent s)
    {board' : SwitchBoard}
    {r k : Nat}
    (hk : k < g.size)
    (hId : (s.board.channels
      (s.board.index (g.channel r k))).id = g.channel r k)
    (hReleased : Released s.board board' (g.channel r k))
    (hBefore : ∀ j, j < k → s.Done j r)
    (hVisit : s.visit k r ≠ .skipped)
    (hLater : s.Later s')
    (hBoard : s'.board = board')
    (hPosted : s'.visit k r = .posted)
    (hInside : ∀ k r, k < g.size → (s'.task k).Inside r →
      ∀ j, j < k → s'.Done j r) :
    EntryInv g parent s' := by
  have hIds : ∀ i, (s'.board.channels i).id =
      (s.board.channels i).id := by
    intro i
    rw [hBoard]
    by_cases hi : i = s.board.index (g.channel r k)
    · rw [hi, hReleased.id_self, hId]
    · exact hReleased.id_other i hi
  have hFirst : s'.board.first = s.board.first := by
    rw [hBoard]
    exact hReleased.first
  have hChains : ChainsInv g parent s' := by
    constructor
    · rw [hBoard, hReleased.size]
      exact hInv.size
    · rw [hBoard]
      exact hReleased.chained hInv.chained
    · intro t u hParent
      rw [hIds t, hIds u]
      rcases hInv.parents t u hParent with ⟨hSkipped, hBelow⟩
      exact ⟨hLater.skipped hSkipped, hBelow⟩
    · rw [hFirst]
      exact hInv.classes
  refine ⟨hChains, ?_, hInside⟩
  intro t hFlag u hSame
  rw [hBoard, hReleased.posted] at hFlag
  rcases hFlag with hOld | hClass
  · rw [hFirst] at hSame
    rcases hInv.ready t hOld u hSame with ⟨hNe, hReady⟩
    rw [hIds u]
    exact ⟨hNe, hLater.ready hReady⟩
  · -- the posted channel is the lowest of its chain
    have hRoot := hInv.root hk hId hVisit
    apply hChains.ready_of_root hRoot
    · rw [hIds, hId]
      have hPos := g.pos
      unfold RegionGroup.channel
      omega
    · rw [hIds, hId]
      intro r' k' hk' he j hj
      rcases g.channel_inj hk hk' he with ⟨rfl, rfl⟩
      by_cases hjk : j = k
      · exact hjk ▸ Or.inl hPosted
      · exact hLater.done (hBefore j (by omega))
    · rw [hFirst] at hSame ⊢
      exact hClass.trans hSame

end Invariant

------------------------------------------------------------
-- Skipping
------------------------------------------------------------

section Skipping

variable {g : RegionGroup}
variable {s s' : RegionState}
variable {parent : Nat → Option Nat}
variable {r k a b : Nat}

/-
  Slot `b`, of the channel of task `k` in region `r`, is
  chained to slot `a` of the channel below.
-/
structure Below
    (g : RegionGroup)
    (s : RegionState)
    (r k a b : Nat) : Prop where
  task : k < g.size
  idA : (s.board.channels a).id = g.channel r k - 1
  idB : (s.board.channels b).id = g.channel r k
  ltA : a < s.board.size
  ltB : b < s.board.size
  ne : a ≠ b
  visit : s.visit k r = .before

/- The task after the skip of region `r`. -/
structure AfterSkip
    (g : RegionGroup)
    (s s' : RegionState)
    (r k : Nat) : Prop where
  later : s.Later s'
  skipped : s'.visit k r = .skipped
  inside : ∀ k r, k < g.size → (s'.task k).Inside r →
    ∀ j, j < k → s'.Done j r

/-
  The upper chain is not posted: its lowest is not done. So
  a call that chains a circle, and never returns, at least
  posts nothing.
-/
theorem EntryInv.above_not_posted
    (hInv : EntryInv g parent s)
    (hBelow : Below g s r k a b)
    {t : Nat}
    (hSame : Chains.SameBlock s.board.first b t) :
    (s.board.channels t).isPosted = false := by
  cases hPosted : (s.board.channels t).isPosted with
  | false => rfl
  | true =>
      have hReady := (hInv.ready t hPosted b hSame.symm).2
      rw [hBelow.idB] at hReady
      have hDone := hReady r k hBelow.task rfl k le_rfl
      rw [RegionState.Done, hBelow.visit] at hDone
      rcases hDone with hEq | hEq <;> cases hEq

/- If the lower chain is posted, both are ready. -/
theorem EntryInv.both_ready
    (hInv : EntryInv g parent s)
    (hBelow : Below g s r k a b)
    (hAfter : AfterSkip g s s' r k)
    {t : Nat}
    (hPosted : (s.board.channels t).isPosted = true)
    (hSame : Chains.SameBlock s.board.first a t)
    {u : Nat}
    (hu : Chains.SameBlock s.board.first a u ∨
      Chains.SameBlock s.board.first b u) :
    (s.board.channels u).id ≠ 0 ∧
      g.Ready s' (s.board.channels u).id := by
  have hReadyA := (hInv.ready t hPosted a hSame.symm).2
  rcases hu with hu | hu
  · rcases hInv.ready t hPosted u (hSame.symm.trans hu) with
      ⟨hId, hReady⟩
    exact ⟨hId, hAfter.later.ready hReady⟩
  · -- the skip makes the lowest of the upper chain ready
    have hReadyB : g.Ready s' (s.board.channels b).id := by
      rw [hBelow.idB]
      apply ready_of_below
        ⟨r, k, hBelow.task, rfl, hAfter.skipped⟩
      rw [hBelow.idA] at hReadyA
      exact Or.inl (hAfter.later.ready hReadyA)
    have hChains : ChainsInv g parent
        { s with visit := s'.visit } :=
      hInv.toChainsInv.later hAfter.later rfl
    have hRoot : parent b = none := by
      apply hInv.root hBelow.task hBelow.idB
      rw [hBelow.visit]
      simp
    have hId : (s.board.channels b).id ≠ 0 := by
      have hPos := g.pos
      rw [hBelow.idB]
      unfold RegionGroup.channel
      omega
    exact hChains.ready_of_root hRoot hId hReadyB hu

/- The chains after the call. -/
theorem EntryInv.join_chains
    (hInv : EntryInv g parent s)
    (hBelow : Below g s r k a b)
    (hAfter : AfterSkip g s s' r k)
    {l m : List Nat}
    {posted : Bool}
    (hl : Chains.Cell s.board.first s.board.next l)
    (hm : Chains.Cell s.board.first s.board.next m)
    (hApart : ∀ i ∈ l, i ∉ m)
    (hEnds : (b ∈ l ∧ a ∈ m) ∨ (a ∈ l ∧ b ∈ m))
    (hAppended : Appended s.board s'.board l m posted) :
    ChainsInv g (Function.update parent b (some a)) s' := by
  rcases hAppended.joined with ⟨f, hJoined⟩
  have hRoot : parent b = none := by
    apply hInv.root hBelow.task hBelow.idB
    rw [hBelow.visit]
    simp
  constructor
  · rw [hAppended.size]
    exact hInv.size
  · apply hAppended.chained hInv.chained hl hm hApart
    have hLists := hInv.chained.listed
    intro i hi
    rcases hEnds with ⟨hb, ha⟩ | ⟨ha, hb⟩
    · rcases hi with hi | hi
      · exact hLists.lt_size hl hb hBelow.ltB hi
      · exact hLists.lt_size hm ha hBelow.ltA hi
    · rcases hi with hi | hi
      · exact hLists.lt_size hl ha hBelow.ltA hi
      · exact hLists.lt_size hm hb hBelow.ltB hi
  · intro t u hParent
    rw [hAppended.ids t, hAppended.ids u]
    by_cases ht : t = b
    · subst ht
      rw [Function.update_self, Option.some.injEq] at hParent
      rw [← hParent, hBelow.idA, hBelow.idB]
      exact ⟨⟨r, k, hBelow.task, rfl, hAfter.skipped⟩,
        Or.inl rfl⟩
    · rw [Function.update_of_ne ht] at hParent
      rcases hInv.parents t u hParent with ⟨hSkipped, hDown⟩
      exact ⟨hAfter.later.skipped hSkipped, hDown⟩
  · intro t u
    rw [Chains.sameBlock_join_eqvGen_iff
      hInv.chained.listed.listed hl hm hApart hJoined hEnds
      hInv.classes]
    have hRel : (fun t u => Function.update parent b (some a) t =
        some u) = fun t u => (t = b ∧ u = a) ∨
          parent t = some u := by
      funext t u
      by_cases ht : t = b
      · subst ht
        rw [Function.update_self, hRoot]
        simp [eq_comm]
      · rw [Function.update_of_ne ht]
        simp [ht]
    rw [hRel]

/-
  The flags after the call come from the lower chain, whose
  channels and those above are ready.
-/
theorem EntryInv.join
    (hInv : EntryInv g parent s)
    (hBelow : Below g s r k a b)
    (hAfter : AfterSkip g s s' r k)
    (hCall : chainSlots s.board a b = some s'.board) :
    ∃ parent', EntryInv g parent' s' := by
  have hSize : 0 < s.board.size := by
    have hLt := hBelow.ltA
    omega
  have hTwo : ¬Chains.SameBlock s.board.first a b := by
    intro hCase
    rcases hCase with hEq | ⟨f, hFirstA, hFirstB⟩
    · exact hBelow.ne hEq
    · rw [chainSlots_same hInv.chained.listed hSize hFirstA
        hFirstB] at hCall
      cases hCall
  rcases chainSlots_appended hInv.chained.listed hSize hTwo with
    ⟨board', l, m, hCall', hl, hm, hApart, hAppended, hSides⟩
  rw [hCall', Option.some.injEq] at hCall
  subst hCall
  have hEnds : (b ∈ l ∧ a ∈ m) ∨ (a ∈ l ∧ b ∈ m) := by
    rcases hSides with ⟨ha, hb, _⟩ | ⟨hb, ha, _⟩
    · exact Or.inr ⟨ha, hb⟩
    · exact Or.inl ⟨hb, ha⟩
  have hChains := hInv.join_chains hBelow hAfter hl hm hApart
    hEnds hAppended
  rcases hAppended.joined with ⟨f, hJoined⟩
  have hMembers : ∀ i, i ∈ l ∨ i ∈ m ↔
      Chains.SameBlock s.board.first a i ∨
        Chains.SameBlock s.board.first b i := by
    intro i
    rcases hEnds with ⟨hb, ha⟩ | ⟨ha, hb⟩
    · rw [hl.mem_iff hb, hm.mem_iff ha, or_comm]
    · rw [hl.mem_iff ha, hm.mem_iff hb]
  refine ⟨_, hChains, ?_, hAfter.inside⟩
  intro t hFlag u hSame
  rw [Chains.sameBlock_join_iff hInv.chained.listed.listed hl hm
    hApart hJoined] at hSame
  rw [hAppended.ids u]
  by_cases ht : t ∈ l ∨ t ∈ m
  · -- some slot of the lower chain was posted
    have hFrom : ∃ t₀, (s.board.channels t₀).isPosted = true ∧
        (Chains.SameBlock s.board.first a t₀ ∨
          Chains.SameBlock s.board.first b t₀) := by
      by_cases hMarked : t ∈ m ∨ l.getLast? = some t
      · rw [hAppended.posted_new t hMarked,
          Bool.or_eq_true] at hFlag
        rcases hFlag with hA | hB
        · exact ⟨a, hA, Or.inl (Or.inl rfl)⟩
        · exact ⟨b, hB, Or.inr (Or.inl rfl)⟩
      · rw [not_or] at hMarked
        rw [hAppended.posted_old t hMarked.1 hMarked.2] at hFlag
        exact ⟨t, hFlag, (hMembers t).mp ht⟩
    rcases hFrom with ⟨t₀, hPosted, hA | hB⟩
    · apply hInv.both_ready hBelow hAfter hPosted hA
      rw [← hMembers]
      rcases hSame with hOld | ⟨_, hu⟩
      · rcases ht with ht | ht
        · exact Or.inl ((hl.mem_iff ht u).mpr hOld)
        · exact Or.inr ((hm.mem_iff ht u).mpr hOld)
      · exact hu
    · rw [hInv.above_not_posted hBelow hB] at hPosted
      cases hPosted
  · have hOld : Chains.SameBlock s.board.first t u :=
      hSame.resolve_right (fun h => ht h.1)
    rw [not_or] at ht
    rw [hAppended.posted_old t ht.2 (fun hLast =>
      ht.1 (List.mem_of_getLast? hLast))] at hFlag
    rcases hInv.ready t hFlag u hOld with ⟨hId, hReady⟩
    exact ⟨hId, hAfter.later.ready hReady⟩

end Skipping

------------------------------------------------------------
-- The Steps
------------------------------------------------------------

section Steps

variable {g : RegionGroup}
variable {s s' : RegionState}
variable {parent : Nat → Option Nat}
variable {r k : Nat}

theorem status_aside
    (k : Nat) :
    (OrderedGroup.status k).aside = false := by
  unfold OrderedGroup.status
  split <;> rfl

theorem RegionGroup.channel_pos
    (g : RegionGroup)
    (r k : Nat) :
    g.channel r k ≠ 0 := by
  have hPos := g.pos
  unfold RegionGroup.channel
  omega

theorem ChainsInv.size_le
    (hInv : ChainsInv g parent s) :
    10 * g.size ≤ s.board.size := by
  rw [hInv.size]
  unfold postwaitInit
  simp only
  split <;> omega

/- Neighbouring channels have different slots. -/
theorem index_pred_ne
    {board : SwitchBoard}
    {e : Nat}
    (hSize : 2 ≤ board.size)
    (he : e ≠ 0) :
    board.index (e - 1) ≠ board.index e := by
  intro hEq
  have hMod := Nat.sub_mod_eq_zero_of_mod_eq hEq.symm
  have hOne : e - (e - 1) = 1 := by omega
  rw [hOne, Nat.mod_eq_of_lt (by omega)] at hMod
  cases hMod

/- A wait returns when the channel's own slot is posted. -/
theorem channelWait_posted
    {id : Nat}
    {board : SwitchBoard}
    {readMap writeMap received : RangeMap Bytes}
    {mem : Memory}
    {result : RangeMap Bytes × Memory}
    (h : channelWait .spec id board readMap writeMap received
      mem = some (.ret result)) :
    (board.channels (board.index id)).isPosted = true ∧
      (board.channels (board.index id)).id = id := by
  unfold channelWait at h
  rw [if_neg (by simp)] at h
  cases hPosted :
      (board.channels (board.index id)).isPosted with
  | false => simp [hPosted] at h
  | true =>
      by_cases hId :
          (board.channels (board.index id)).id = id
      · exact ⟨rfl, hId⟩
      · simp [hPosted, hId] at h

/- What `BOP_ordered_begin` does when it returns. -/
theorem bopOrderedBegin_cases
    {status : TaskStatus}
    {id gs pprIndex : Nat}
    {board : SwitchBoard}
    {t t' : TaskData}
    (h : bopOrderedBegin status id gs pprIndex board t =
      some (.ret t')) :
    (t.inOrderedRegion = true ∧ t' = t) ∨
    (t.inOrderedRegion = false ∧
      t'.inOrderedRegion = true ∧ t'.orderedRegionId = id ∧
      ∃ result,
        channelWait status
          (addrSub (channelForRegion id gs pprIndex) 1) board
          t.readMap t.writeMap t.received t.mem =
            some (.ret result)) := by
  unfold bopOrderedBegin at h
  cases hIn : t.inOrderedRegion with
  | true =>
      rw [hIn, if_pos rfl, Option.some.injEq,
        Outcome.ret.injEq] at h
      exact Or.inl ⟨rfl, h.symm⟩
  | false =>
      rw [hIn, if_neg Bool.false_ne_true,
        Option.map_eq_some_iff] at h
      rcases h with ⟨waited, hWait, hRet⟩
      rw [Outcome.bind_eq_ret_iff] at hRet
      rcases hRet with ⟨⟨received, mem⟩, hWaited, hRet⟩
      cases hRet
      rw [hWaited] at hWait
      exact Or.inr ⟨rfl, rfl, rfl, _, hWait⟩

/- What `BOP_ordered_end` does when it returns. -/
theorem bopOrderedEnd_cases
    {status : TaskStatus}
    {id gs pprIndex : Nat}
    {board board' : SwitchBoard}
    {t t' : TaskData}
    (h : bopOrderedEnd status id gs pprIndex board t =
      .ret (board', t')) :
    (¬t.Inside id ∧ board' = board ∧ t' = t) ∨
    (t.Inside id ∧ t'.inOrderedRegion = false ∧
      ∃ localCh localCh' writeMap',
        channelPost status pprIndex
          (channelForRegion id gs pprIndex) t.mem board localCh
          t.writeMap = .ret (board', localCh', writeMap')) := by
  unfold bopOrderedEnd at h
  by_cases hIn : t.Inside id
  · have hTest : t.inOrderedRegion = true ∧
        t.orderedRegionId = id := hIn
    rw [if_pos hTest] at h
    simp only [Outcome.bind_eq_ret_iff] at h
    rcases h with
      ⟨localCh, _, ⟨board₁, localCh', writeMap'⟩, hPost, h⟩
    cases h
    exact Or.inr ⟨hIn, rfl, localCh, localCh', writeMap',
      hPost⟩
  · have hTest : ¬(t.inOrderedRegion = true ∧
        t.orderedRegionId = id) := hIn
    rw [if_neg hTest] at h
    cases h
    exact Or.inl ⟨hIn, rfl, rfl⟩

theorem enter_cases
    (hStep : regionStep g s (.enter k r) = some s') :
    g.May s k r .before ∧
    ∃ t', bopOrderedBegin (OrderedGroup.status k) r g.size
        (g.pprIndex + k) s.board (s.task k) =
          some (.ret t') ∧
      s' = { s with
        task := Function.update s.task k t'
        visit := s.setVisit k r .begun } := by
  simp only [regionStep] at hStep
  split at hStep
  · rename_i hMay
    split at hStep
    · rename_i t' hBegin
      cases hStep
      exact ⟨hMay, t', hBegin, rfl⟩
    · cases hStep
  · cases hStep

theorem leave_cases
    (hStep : regionStep g s (.leave k r) = some s') :
    g.May s k r .begun ∧
    ∃ board' t', bopOrderedEnd (OrderedGroup.status k) r g.size
        (g.pprIndex + k) s.board (s.task k) =
          .ret (board', t') ∧
      s' = { s with
        board := board'
        task := Function.update s.task k t'
        visit := s.setVisit k r
          (if (s.task k).Inside r then .posted
            else .passed) } := by
  simp only [regionStep] at hStep
  split at hStep
  · rename_i hMay
    split at hStep
    · rename_i board' t' hEnd
      cases hStep
      exact ⟨hMay, board', t', hEnd, rfl⟩
    · cases hStep
  · cases hStep

theorem skip_cases
    (hStep : regionStep g s (.skip k r) = some s') :
    g.May s k r .before ∧
    ∃ board', bopOrderedSkip (OrderedGroup.status k) r g.size
        (g.pprIndex + k) s.board = .ret board' ∧
      s' = { s with
        board := board'
        visit := s.setVisit k r .skipped } := by
  simp only [regionStep] at hStep
  split at hStep
  · rename_i hMay
    split at hStep
    · rename_i board' hSkip
      cases hStep
      exact ⟨hMay, board', hSkip, rfl⟩
    · cases hStep
  · cases hStep

/- A task that was let in comes after the others. -/
theorem EntryInv.let_in
    (hInv : EntryInv g parent s)
    (hr : r ∈ g.regions)
    (hk : k < g.size)
    (hSpec : OrderedGroup.status k = .spec)
    {t' : TaskData}
    (hBegin : bopOrderedBegin (OrderedGroup.status k) r g.size
      (g.pprIndex + k) s.board (s.task k) = some (.ret t'))
    (hOutside : (s.task k).inOrderedRegion = false) :
    ∀ j, j < k → s.Done j r := by
  rcases bopOrderedBegin_cases hBegin with
    ⟨hIn, _⟩ | ⟨_, _, _, result, hWait⟩
  · rw [hOutside] at hIn
    cases hIn
  · rw [g.channelForRegion_eq hr hk, g.channel_pred hr hk,
      hSpec] at hWait
    rcases channelWait_posted hWait with ⟨hPosted, hId⟩
    have hReady := (hInv.ready _ hPosted _ (Or.inl rfl)).2
    rw [hId] at hReady
    intro j hj
    refine hReady r (k - 1) (by omega) ?_ j (by omega)
    unfold RegionGroup.channel
    omega

theorem setVisit_self
    (s : RegionState)
    (k r : Nat)
    (v : Visit) :
    s.setVisit k r v k r = v := by
  unfold RegionState.setVisit
  rw [Function.update_self, Function.update_self]

/- The tasks inside regions, when one of them changes. -/
theorem EntryInv.inside_update
    (hInv : EntryInv g parent s)
    (hLater : s.Later s')
    {t' : TaskData}
    (hTask : s'.task = Function.update s.task k t')
    (hNew : ∀ r, t'.Inside r → ∀ j, j < k → s'.Done j r) :
    ∀ i r, i < g.size → (s'.task i).Inside r →
      ∀ j, j < i → s'.Done j r := by
  intro i r' hi hIn j hj
  rw [hTask] at hIn
  by_cases hik : i = k
  · subst hik
    rw [Function.update_self] at hIn
    exact hNew r' hIn j hj
  · rw [Function.update_of_ne hik] at hIn
    exact hLater.done (hInv.inside i r' hi hIn j hj)

theorem EntryInv.enter
    (hInv : EntryInv g parent s)
    (hStep : regionStep g s (.enter k r) = some s') :
    EntryInv g parent s' := by
  rcases enter_cases hStep with
    ⟨⟨hk, hr, hVisit⟩, t', hBegin, rfl⟩
  have hLater : s.Later
      { s with
        task := Function.update s.task k t'
        visit := s.setVisit k r .begun } :=
    later_setVisit k r (by simp [hVisit]) (by simp [hVisit])
      rfl
  apply hInv.later hLater rfl
  apply hInv.inside_update hLater rfl
  intro r' hIn j hj
  rcases bopOrderedBegin_cases hBegin with
    ⟨_, rfl⟩ | ⟨hOutside, _, hRegion, _⟩
  · exact hLater.done (hInv.inside k r' hk hIn j hj)
  · have hSpec : OrderedGroup.status k = .spec := by
      unfold OrderedGroup.status
      rw [if_neg (by omega)]
    rw [hIn.2] at hRegion
    subst hRegion
    exact hLater.done
      (hInv.let_in hr hk hSpec hBegin hOutside j hj)

theorem EntryInv.work
    (hInv : EntryInv g parent s)
    {f : TaskData → TaskData}
    (hStep : regionStep g s (.work k f) = some s') :
    EntryInv g parent s' := by
  unfold regionStep at hStep
  cases hStep
  have hLater : s.Later
      { s with
        task := Function.update s.task k
          { f (s.task k) with
            inOrderedRegion := (s.task k).inOrderedRegion
            orderedRegionId := (s.task k).orderedRegionId } } :=
    later_of_eq rfl
  apply hInv.later hLater rfl
  intro i r' hi hIn j hj
  apply hLater.done
  apply hInv.inside i r' hi _ j hj
  by_cases hik : i = k
  · subst hik
    simp only [Function.update_self] at hIn
    exact hIn
  · simp only [Function.update_of_ne hik] at hIn
    exact hIn

theorem EntryInv.leave
    (hInv : EntryInv g parent s)
    (hStep : regionStep g s (.leave k r) = some s') :
    EntryInv g parent s' := by
  rcases leave_cases hStep with
    ⟨⟨hk, hr, hVisit⟩, board', t', hEnd, hEq⟩
  have hLater : s.Later s' :=
    later_setVisit k r (by simp [hVisit]) (by simp [hVisit])
      (by rw [hEq])
  have hTask : s'.task = Function.update s.task k t' := by
    rw [hEq]
  rcases bopOrderedEnd_cases hEnd with
    ⟨hNot, hBoard, hSame⟩ | ⟨hIn, hOut, _, _, _, hPost⟩
  · -- the call was ignored
    apply hInv.later hLater
    · rw [hEq]
      exact hBoard
    · apply hInv.inside_update hLater hTask
      intro r' hIn j hj
      rw [hSame] at hIn
      exact hLater.done (hInv.inside k r' hk hIn j hj)
  · have hInside : ∀ i r, i < g.size → (s'.task i).Inside r →
        ∀ j, j < i → s'.Done j r := by
      apply hInv.inside_update hLater hTask
      intro r' hIn' j hj
      rw [TaskData.Inside, hOut] at hIn'
      cases hIn'.1
    have hSize : 0 < s.board.size := by
      have hLe := hInv.size_le
      omega
    rw [g.channelForRegion_eq hr hk] at hPost
    rcases channelPost_cases
        hInv.chained.listed hSize hPost with
      ⟨_, hOld⟩ | ⟨hPosts, hReleased⟩
    · -- a channel that is posted already keeps its data
      apply hInv.later hLater _ hInside
      rw [hEq]
      rcases hOld with hOld | ⟨hFree, hPosted, hOld⟩
      · exact hOld
      · have hNe := (hInv.ready _ hPosted _ (Or.inl rfl)).1
        have hId : (s.board.channels (s.board.index
            (g.channel r k))).id = g.channel r k := by
          by_contra hOther
          exact hFree ⟨hNe, hOther⟩
        exact hOld.trans (s.board.set_id_self hId)
    · refine (hInv.allocate (g.channel r k)).post hk
        (s.board.allocate_index _ _ ▸
          s.board.allocate_id_self hPosts.free)
        hReleased.allocate (hInv.inside k r hk hIn) ?_ hLater
        ?_ ?_ hInside
      · rw [hVisit]
        simp
      · rw [hEq]
      · rw [hEq]
        simp only [hIn, if_true]
        exact setVisit_self s k r .posted

theorem EntryInv.skip
    (hInv : EntryInv g parent s)
    (hStep : regionStep g s (.skip k r) = some s') :
    ∃ parent', EntryInv g parent' s' := by
  rcases skip_cases hStep with
    ⟨⟨hk, hr, hVisit⟩, board', hSkip, hEq⟩
  have hLater : s.Later s' :=
    later_setVisit k r (by simp [hVisit]) (by simp [hVisit])
      (by rw [hEq])
  have hInside : ∀ i r, i < g.size → (s'.task i).Inside r →
      ∀ j, j < i → s'.Done j r := by
    intro i r' hi hIn j hj
    rw [hEq] at hIn
    exact hLater.done (hInv.inside i r' hi hIn j hj)
  have hSize : 10 ≤ s.board.size := by
    have hLe := hInv.size_le
    omega
  unfold bopOrderedSkip at hSkip
  simp only [g.channelForRegion_eq hr hk,
    g.channel_pred hr hk] at hSkip
  rw [channelChain_eq _ _ _ (status_aside k)] at hSkip
  have hInv₂ := (hInv.allocate (g.channel r k - 1)).allocate
    (g.channel r k)
  split at hSkip
  · -- no resource for one of the two
    cases hSkip
    refine ⟨parent, hInv₂.later hLater ?_ hInside⟩
    rw [hEq]
  · rename_i hFree
    rw [not_or] at hFree
    rw [Outcome.ofOption_eq_ret_iff] at hSkip
    have hNe := index_pred_ne (show 2 ≤ s.board.size by omega)
      (g.channel_pos r k)
    have hBelow : Below g
        { s with
          board := (s.board.allocate
            (g.channel r k - 1)).allocate (g.channel r k) }
        r k (s.board.index (g.channel r k - 1))
        (s.board.index (g.channel r k)) := by
      constructor
      · exact hk
      · simp only
        rw [SwitchBoard.allocate_of_ne]
        · exact s.board.allocate_id_self hFree.1
        · rw [s.board.allocate_index]
          exact hNe
      · have hId := (s.board.allocate
          (g.channel r k - 1)).allocate_id_self hFree.2
        rw [s.board.allocate_index] at hId
        exact hId
      · simp only [SwitchBoard.allocate_size]
        exact Nat.mod_lt _ (by omega)
      · simp only [SwitchBoard.allocate_size]
        exact Nat.mod_lt _ (by omega)
      · exact hNe
      · exact hVisit
    have hSkipped : s'.visit k r = .skipped := by
      rw [hEq]
      exact setVisit_self s k r .skipped
    apply hInv₂.join hBelow ⟨hLater, hSkipped, hInside⟩
    rw [hEq]
    exact hSkip

end Steps

------------------------------------------------------------
-- The Order of Entry
------------------------------------------------------------

theorem EntryInv.initial
    (g : RegionGroup) :
    EntryInv g (fun _ => none) (regionMachine g).start := by
  constructor
  · constructor
    · rfl
    · exact ⟨Chains.partitioned_of_none (fun _ => rfl)
        (fun _ => rfl), fun i f hFirst => nomatch hFirst⟩
    · intro t u hParent
      cases hParent
    · intro t u
      rw [Chains.eqvGen_empty_iff (fun _ _ h => nomatch h)]
      constructor
      · intro hCase
        rcases hCase with hEq | ⟨f, hFirst, _⟩
        · exact hEq
        · cases hFirst
      · exact Or.inl
  · intro t hPosted
    cases hPosted
  · intro k r _ hIn
    cases hIn.1

theorem entryInv_of_reachable
    {g : RegionGroup}
    {s : RegionState}
    (hReach : (regionMachine g).Reachable Machine.anyStep s) :
    ∃ parent, EntryInv g parent s := by
  apply hReach.invariant (fun s => ∃ parent, EntryInv g parent s)
  · exact ⟨_, EntryInv.initial g⟩
  · intro s call s' _ h
    rcases h with ⟨parent, hInv⟩
    intro _ hStep
    cases call with
    | enter k r => exact ⟨parent, hInv.enter hStep⟩
    | leave k r => exact ⟨parent, hInv.leave hStep⟩
    | skip k r => exact hInv.skip hStep
    | work k f => exact ⟨parent, hInv.work hStep⟩

/-
  When a speculative task returns from its wait and enters a
  region, all tasks before it have posted for the region or
  skipped it.
-/
theorem entered_in_order
    (g : RegionGroup)
    {s s' : RegionState}
    {i r : Nat}
    (hReach : (regionMachine g).Reachable Machine.anyStep s)
    (hSpec : OrderedGroup.status i = .spec)
    (hOutside : (s.task i).inOrderedRegion = false)
    (hEnter : (regionMachine g).step s (.enter i r) =
      some s') :
    ∀ j, j < i → s.Done j r := by
  rcases entryInv_of_reachable hReach with ⟨parent, hInv⟩
  rcases enter_cases hEnter with
    ⟨⟨hi, hr, _⟩, t', hBegin, _⟩
  exact hInv.let_in hr hi hSpec hBegin hOutside

/- A group of three tasks and one region. -/
def threeTasks : RegionGroup where
  size := 3
  pprIndex := 1
  boardSize := 0
  memory := fun _ => 0
  regions := [0]
  pos := by decide
  fits := by decide

/- The first task writes and posts, the second one skips. -/
def firstPosts : List RegionCall :=
  [.enter 0 0,
    .work 0 (fun t =>
      { t with
        writeMap := recordAccess t.writeMap (8, 4)
        orderedWrites := recordAccess t.orderedWrites (8, 4) }),
    .leave 0 0, .skip 1 0]

/- The third task enters after the first two. -/
theorem entered_in_order_third :
    ∃ s s',
      (regionMachine threeTasks).Reachable Machine.anyStep s ∧
      (regionMachine threeTasks).step s (.enter 2 0) =
        some s' ∧
      ∀ j, j < 2 → s.Done j 0 := by
  rcases Machine.exists_reachable_of_run
      (regionMachine threeTasks) Machine.anyStep
      (fun _ _ => true) (fun _ _ _ => trivial) firstPosts
      (fun s => ((regionMachine threeTasks).step s
        (.enter 2 0)).isSome && !(s.task 2).inOrderedRegion)
      (by rfl) with
    ⟨s, hReach, hEnters⟩
  rw [Bool.and_eq_true, Option.isSome_iff_exists,
    Bool.not_eq_true'] at hEnters
  rcases hEnters with ⟨⟨s', hStep⟩, hOutside⟩
  exact ⟨s, s', hReach, hStep,
    entered_in_order threeTasks hReach rfl hOutside hStep⟩

end Cbop
