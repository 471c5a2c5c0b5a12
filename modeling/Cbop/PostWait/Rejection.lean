import Cbop.PostWait.Tasks

/-
  What a rejected post means for the next ones of its task.

  A rejected post returns before the local record is reset.
  If something was filled for the rejected channel, its name
  stays in the record, and every later fill and post of
  another channel is ignored. If nothing was filled, the
  rejected post leaves no trace.

  Main declarations:
    * `LaterCall`, `PostState`, `runLater`
    * `runLater_ignored`, `runLater_posted`
    * `laterPosts_agree_iff`
-/

namespace Cbop

------------------------------------------------------------
-- The Calls After a Post
------------------------------------------------------------

/- What the task does later: fill, post, or record a write. -/
inductive LaterCall where
| fill (f : Fill)
| post (status : TaskStatus) (pprIndex : Nat) (mem : Memory)
| write (base size : Nat)

/- The board, the local record and the write map. -/
structure PostState where
  board : SwitchBoard
  localCh : LocalChannel
  writeMap : RangeMap Bytes

/- Its calls name one channel. -/
def LaterCall.run
    (id : Nat) :
    LaterCall → PostState → Outcome PostState
| .fill f, st => do
    let ch ← channelFill f.status id st.localCh f.base f.size
    .ret { st with localCh := ch }
| .post status pprIndex mem, st => do
    let (board, localCh, writeMap) ← channelPost status
      pprIndex id mem st.board st.localCh st.writeMap
    .ret ⟨board, localCh, writeMap⟩
| .write base size, st =>
    .ret { st with
      writeMap := recordAccess st.writeMap (base, size) }

def runLater
    (id : Nat)
    (calls : List LaterCall)
    (st : PostState) :
    Outcome PostState :=
  calls.foldlM (fun st call => call.run id st) st

/- What other tasks and the commit see of it. -/
def sharedAfter
    (result : Outcome PostState) :
    Outcome (SwitchBoard × RangeMap Bytes) := do
  let st ← result
  .ret (st.board, st.writeMap)

/- A post by a task that takes part in the group. -/
def LaterCall.Effective : LaterCall → Prop
| .post status _ _ => status.aside = false
| .fill _ => False
| .write _ _ => False

------------------------------------------------------------
-- A Record Kept for Another Channel
------------------------------------------------------------

theorem channelFill_ignored
    (status : TaskStatus)
    {id : Nat}
    {ch : LocalChannel}
    (base size : Nat)
    (hId : id ≠ 0)
    (hOther : ¬ch.Serves id) :
    channelFill status id ch base size = .ret ch := by
  have hHas : hasLocalChannel ch id = .ret false := by
    unfold hasLocalChannel LocalChannel.Serves at *
    rw [if_neg hId]
    simpa using hOther
  unfold channelFill
  rw [hHas]
  simp

/- Then no call reaches the board. -/
theorem LaterCall.run_ignored
    (call : LaterCall)
    {id : Nat}
    {st : PostState}
    (hId : id ≠ 0)
    (hOther : ¬st.localCh.Serves id) :
    ∃ writeMap, call.run id st =
      .ret { st with writeMap := writeMap } := by
  cases call with
  | fill f =>
      refine ⟨st.writeMap, ?_⟩
      simp only [LaterCall.run,
        channelFill_ignored f.status f.base f.size hId hOther,
        Outcome.ret_bind]
  | post status pprIndex mem =>
      refine ⟨st.writeMap, ?_⟩
      simp only [LaterCall.run,
        channelPost_ignored pprIndex mem st.board st.writeMap
          hId (Or.inr hOther), Outcome.ret_bind]
  | write base size => exact ⟨_, rfl⟩

theorem runLater_ignored
    (calls : List LaterCall)
    {id : Nat}
    {st : PostState}
    (hId : id ≠ 0)
    (hOther : ¬st.localCh.Serves id) :
    ∃ writeMap, runLater id calls st =
      .ret { st with writeMap := writeMap } := by
  induction calls generalizing st with
  | nil => exact ⟨st.writeMap, rfl⟩
  | cons call rest ih =>
      rcases call.run_ignored hId hOther with
        ⟨writeMap, hRun⟩
      have hKept : ¬({ st with writeMap := writeMap } :
          PostState).localCh.Serves id := hOther
      rcases ih hKept with ⟨last, hRest⟩
      refine ⟨last, ?_⟩
      unfold runLater
      rw [List.foldlM_cons, hRun]
      exact hRest

------------------------------------------------------------
-- A Record That Is Free
------------------------------------------------------------

/- The task can fill and post the channel. -/
structure PostState.Serving
    (st : PostState)
    (id : Nat) : Prop where
  orderly : st.board.Orderly
  serves : st.localCh.Serves id
  free : ¬st.board.Taken id

/- The slot of the channel is posted. -/
def PostState.IsPosted (st : PostState) (id : Nat) : Prop :=
  (st.board.channels (st.board.index id)).isPosted = true

/- A post that returns leaves the channel posted. -/
theorem PostState.Serving.post
    {id : Nat}
    {st : PostState}
    (h : st.Serving id)
    {status : TaskStatus}
    {pprIndex : Nat}
    {mem : Memory}
    {board' : SwitchBoard}
    {localCh' : LocalChannel}
    {writeMap' : RangeMap Bytes}
    (hId : id ≠ 0)
    (hCall : channelPost status pprIndex id mem st.board
      st.localCh st.writeMap =
        .ret (board', localCh', writeMap')) :
    PostState.Serving ⟨board', localCh', writeMap'⟩ id ∧
      (st.IsPosted id ∨ status.aside = false →
        PostState.IsPosted ⟨board', localCh', writeMap'⟩
          id) := by
  rcases h.orderly.post hId hCall with ⟨hOrderly, hSize⟩
  have hIndex := index_congr hSize
  unfold PostState.IsPosted
  dsimp only
  rw [hIndex]
  rcases channelPost_inv hCall with
    ⟨hIgnored, hBoard', hLocal', _⟩ |
    ⟨_, data, _, ⟨hRejected, hBoard', hLocal', _⟩ |
      ⟨hPosts, hSlot, _, hLocal'⟩⟩
  · rw [hBoard', hLocal']
    refine ⟨⟨h.orderly, h.serves, h.free⟩, ?_⟩
    intro hCases
    rcases hCases with hPosted | hStatus
    · exact hPosted
    · exact absurd hIgnored (not_ignored hStatus h.serves)
  · have hPosted :
        (st.board.channels (st.board.index id)).isPosted =
          true := by
      rcases hRejected.refused with hTaken | hPosted
      · exact absurd hTaken h.free
      · exact hPosted
    have hServes : localCh'.Serves id := by
      rw [hLocal']
      exact h.serves
    rcases hBoard' with hOld | ⟨_, _, hOld⟩
    · rw [hOld]
      exact ⟨⟨h.orderly, hServes, h.free⟩, fun _ => hPosted⟩
    · have hSelf :
          board'.channels (st.board.index id) =
            { st.board.channels (st.board.index id) with
              id := id } := by
        rw [hOld, st.board.set_channels_self]
      refine ⟨⟨hOrderly, hServes, ?_⟩, fun _ => ?_⟩
      · intro hGiven
        rcases hGiven with ⟨_, hOther⟩
        dsimp only at hOther
        rw [hIndex, hSelf] at hOther
        exact hOther rfl
      · rw [hSelf]
        exact hPosted
  · have hReleased := channelPost_released h.orderly.listed
      h.orderly.size hPosts hCall
    refine ⟨⟨hOrderly, ?_, ?_⟩, fun _ => ?_⟩
    · dsimp only
      rw [hLocal']
      exact Or.inl rfl
    · intro hGiven
      rcases hGiven with ⟨_, hOther⟩
      dsimp only at hOther
      rw [hIndex] at hOther
      exact hOther hReleased.id_self
    · rw [hReleased.posted]
      exact Or.inr (Or.inl rfl)

/- One later call on a channel that can be posted. -/
theorem LaterCall.run_serving
    {call : LaterCall}
    {id : Nat}
    {st st' : PostState}
    (hId : id ≠ 0)
    (h : st.Serving id)
    (hRun : call.run id st = .ret st') :
    st'.Serving id ∧
      (st.IsPosted id ∨ call.Effective → st'.IsPosted id) := by
  cases call with
  | fill f =>
      unfold LaterCall.run at hRun
      rw [Outcome.bind_eq_ret_iff] at hRun
      rcases hRun with ⟨ch, hFill, hRet⟩
      rw [Outcome.ret.injEq] at hRet
      rw [← hRet]
      refine ⟨⟨h.orderly, ?_, h.free⟩, ?_⟩
      · rcases channelFill_inv hFill with
          ⟨_, hSame⟩ | ⟨_, _, _, _, hOwn, _⟩
        · rw [hSame]
          exact h.serves
        · exact Or.inr hOwn
      · intro hCases
        rcases hCases with hPosted | hEffective
        · exact hPosted
        · exact hEffective.elim
  | post status pprIndex mem =>
      unfold LaterCall.run at hRun
      rw [Outcome.bind_eq_ret_iff] at hRun
      rcases hRun with
        ⟨⟨board', localCh', writeMap'⟩, hCall, hRet⟩
      rw [Outcome.ret.injEq] at hRet
      rw [← hRet]
      exact h.post hId hCall
  | write base size =>
      unfold LaterCall.run at hRun
      rw [Outcome.ret.injEq] at hRun
      rw [← hRun]
      refine ⟨⟨h.orderly, h.serves, h.free⟩, ?_⟩
      intro hCases
      rcases hCases with hPosted | hEffective
      · exact hPosted
      · exact hEffective.elim

/- A sequence with a post leaves the channel posted. -/
theorem runLater_posted
    {calls : List LaterCall}
    {id : Nat}
    {st st' : PostState}
    (hId : id ≠ 0)
    (h : st.Serving id)
    (hPosts : st.IsPosted id ∨
      ∃ call ∈ calls, call.Effective)
    (hRun : runLater id calls st = .ret st') :
    st'.IsPosted id := by
  induction calls generalizing st with
  | nil =>
      have hEq : st = st' := by
        simpa [runLater] using hRun
      rcases hPosts with hPosted | ⟨_, hNone, _⟩
      · rw [← hEq]
        exact hPosted
      · cases hNone
  | cons call rest ih =>
      unfold runLater at hRun
      rw [List.foldlM_cons, Outcome.bind_eq_ret_iff] at hRun
      rcases hRun with ⟨next, hNext, hRest⟩
      rcases call.run_serving hId h hNext with
        ⟨hServing, hPosted⟩
      apply ih hServing _ hRest
      rcases hPosts with hOld | ⟨c, hc, hEffective⟩
      · exact Or.inl (hPosted (Or.inl hOld))
      · rcases List.mem_cons.mp hc with rfl | hc
        · exact Or.inl (hPosted (Or.inr hEffective))
        · exact Or.inr ⟨c, hc, hEffective⟩

------------------------------------------------------------
-- With and Without the Rejected Post
------------------------------------------------------------

/- Resetting an empty record changes nothing. -/
theorem LocalChannel.Empty.reset_eq
    {ch : LocalChannel}
    (h : ch.Empty) :
    channelLocalReset ch = ch := by
  rcases ch with ⟨id, isHash, root, size⟩
  rcases h with ⟨hId, hRoot, hSize⟩
  dsimp only at hId hRoot hSize
  rw [hId, hRoot, hSize]
  rfl

/-
  In any state that calls on a fresh board lead to, let a
  post of one channel be rejected, and let the task fill and
  post another channel that is free. The board and the write
  map end up as they would without the rejected channel
  exactly if nothing was filled for it.
-/
theorem laterPosts_agree_iff
    {size gs k id id' : Nat}
    {calls : List BoardCall}
    {st : BoardState}
    {status : TaskStatus}
    {pprIndex : Nat}
    {mem : Memory}
    {board' : SwitchBoard}
    {localCh' : LocalChannel}
    {writeMap writeMap' : RangeMap Bytes}
    {later : List LaterCall}
    (hSize : 0 < (postwaitInit size gs).size)
    (hOk : ∀ call ∈ calls, call.Ok)
    (hRun : runCalls calls (freshBoard size gs) = .ret st)
    (hRejected : Rejected status (st.locals k) id st.board)
    (hPost : channelPost status pprIndex id mem st.board
      (st.locals k) writeMap =
        .ret (board', localCh', writeMap'))
    (hId' : id' ≠ 0)
    (hOther : id' ≠ id)
    (hFree : ¬st.board.Taken id')
    (hOpen :
      (st.board.channels (st.board.index id')).isPosted =
        false)
    (hLater : ∃ call ∈ later, call.Effective) :
    sharedAfter (runLater id' later
        ⟨board', localCh', writeMap'⟩) =
      sharedAfter (runLater id' later
        ⟨st.board, channelLocalReset (st.locals k),
          writeMap⟩) ↔
      (st.locals k).id = 0 := by
  have hConsistent := consistent_runCalls hSize hOk hRun
  rcases channelPost_inv hPost with
    ⟨hIgnored, _, _, _⟩ |
    ⟨_, data, hData, ⟨_, hBoard', hLocal', hWrite'⟩ |
      ⟨hPosts, _, _, _⟩⟩
  · exact absurd hIgnored
      (not_ignored hRejected.status hRejected.serves)
  · have hSame := hConsistent.rejected_board hBoard'
    rw [hSame, hLocal', hWrite']
    constructor
    · intro hEq
      by_contra hFilled
      -- the record is kept, so nothing is posted
      have hKept : ¬(PostState.mk st.board
          { st.locals k with data := data }
          writeMap).localCh.Serves id' := by
        intro hCases
        rcases hCases with hZero | hOwn
        · exact hFilled hZero
        · rcases hRejected.serves with hZero | hMine
          · exact hFilled hZero
          · exact hOther (hOwn.symm.trans hMine)
      rcases runLater_ignored later hId' hKept with
        ⟨left, hLeft⟩
      rw [hLeft] at hEq
      have hReset := hEq.symm
      unfold sharedAfter at hReset
      rw [Outcome.ret_bind, Outcome.bind_eq_ret_iff] at hReset
      rcases hReset with ⟨st', hRun', hShared⟩
      rw [Outcome.ret.injEq, Prod.mk.injEq] at hShared
      have hPosted := runLater_posted hId'
        ⟨hConsistent.orderly, Or.inl rfl, hFree⟩
        (Or.inr hLater) hRun'
      unfold PostState.IsPosted at hPosted
      rw [hShared.1, hOpen] at hPosted
      cases hPosted
    · intro hZero
      have hEmpty := hConsistent.idle k hZero
      rw [hEmpty.mapIntersect, Option.some.injEq] at hData
      rw [← hData, hEmpty.reset_eq]
  · exact absurd hPosts hRejected.not_posts

/- Channel 1 is filled and posted, on a board of ten slots. -/
def onePosted : List BoardCall :=
  [.fill 0 1 ⟨.spec, 8, 4⟩,
    .post 0 .spec 1 1 (fun _ => 7) twoChanges]

/- Then another channel is filled and posted. -/
def fillAndPost : List LaterCall :=
  [.fill ⟨.spec, 13, 2⟩, .post .spec 1 (fun _ => 7)]

/-
  A post of channel 11, which has the slot of channel 1,
  with nothing filled.
-/
theorem laterPosts_agree_onePosted :
    ∃ st board' localCh' writeMap',
      runCalls onePosted (freshBoard 0 1) = .ret st ∧
      channelPost .spec 1 11 (fun _ => 7) st.board
          (st.locals 0) twoChanges =
        .ret (board', localCh', writeMap') ∧
      sharedAfter (runLater 2 fillAndPost
          ⟨board', localCh', writeMap'⟩) =
        sharedAfter (runLater 2 fillAndPost
          ⟨st.board, channelLocalReset (st.locals 0),
            twoChanges⟩) := by
  have hOk : ∀ call ∈ onePosted, call.Ok := by
    intro call hCall
    simp only [onePosted, List.mem_cons, List.not_mem_nil,
      or_false] at hCall
    rcases hCall with rfl | rfl
    · exact (by decide : (Fill.mk .spec 8 4).Fits)
    · exact (by decide : twoChanges.WellFormed)
  have hLater : ∃ call ∈ fillAndPost, call.Effective :=
    ⟨.post .spec 1 (fun _ => 7), by simp [fillAndPost], rfl⟩
  have hTaken : (1 : Nat) ≠ 0 ∧ (1 : Nat) ≠ 11 := by decide
  obtain ⟨st, hRun, hRejected, hZero, hFree, hOpen, hPost⟩ :
      ∃ st, runCalls onePosted (freshBoard 0 1) = .ret st ∧
        Rejected .spec (st.locals 0) 11 st.board ∧
        (st.locals 0).id = 0 ∧ ¬st.board.Taken 2 ∧
        (st.board.channels (st.board.index 2)).isPosted =
          false ∧
        ∃ board' localCh' writeMap',
          channelPost .spec 1 11 (fun _ => 7) st.board
              (st.locals 0) twoChanges =
            .ret (board', localCh', writeMap') :=
    ⟨_, rfl, ⟨rfl, Or.inl rfl, Or.inl hTaken⟩, rfl,
      fun hTaken => hTaken.1 rfl, rfl, _, _, _, rfl⟩
  rcases hPost with ⟨board', localCh', writeMap', hPost⟩
  refine ⟨st, board', localCh', writeMap', hRun, hPost, ?_⟩
  exact (laterPosts_agree_iff
    (show 0 < (postwaitInit 0 1).size by decide) hOk hRun
    hRejected hPost (by decide) (by decide) hFree hOpen
    hLater).mpr hZero

/-
  If channel 11 is filled before, its rejected post keeps
  the task from posting channel 2.
-/
theorem rejectedPost_disturbs :
    ∃ st board' localCh' writeMap' kept reset,
      runCalls (onePosted ++ [.fill 0 11 ⟨.spec, 13, 2⟩])
          (freshBoard 0 1) = .ret st ∧
      Rejected .spec (st.locals 0) 11 st.board ∧
      ¬st.board.Taken 2 ∧
      channelIsPosted st.board 2 = false ∧
      channelPost .spec 1 11 (fun _ => 7) st.board
          (st.locals 0) twoChanges =
        .ret (board', localCh', writeMap') ∧
      runLater 2 fillAndPost ⟨board', localCh', writeMap'⟩ =
        .ret kept ∧
      runLater 2 fillAndPost
          ⟨st.board, channelLocalReset (st.locals 0),
            twoChanges⟩ = .ret reset ∧
      channelIsPosted kept.board 2 = false ∧
      channelIsPosted reset.board 2 = true := by
  have hTaken : (1 : Nat) ≠ 0 ∧ (1 : Nat) ≠ 11 := by decide
  exact ⟨_, _, _, _, _, _, rfl,
    ⟨rfl, Or.inr rfl, Or.inl hTaken⟩,
    fun hTaken => hTaken.1 rfl, rfl, rfl, rfl, rfl, rfl, rfl⟩

end Cbop
