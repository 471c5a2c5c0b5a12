import Cbop.PostWait.Publish

/-
  The switch board and the local records of the tasks,
  through any sequence of `channel_fill`, `channel_post` and
  `channel_chain` calls.

  Beside the state of the program, a slot remembers the
  bytes of the last post made on it. They are what its data
  covers in every state, since chaining and the marks of a
  post leave the data of all slots alone.

  Main declarations:
    * `BoardCall`, `BoardState`, `runCalls`
    * `BoardState.Consistent`
    * `consistent_runCalls`
-/

namespace Cbop

------------------------------------------------------------
-- Sequences of Calls
------------------------------------------------------------

/- A call made by the task that runs in process `k`. -/
inductive BoardCall where
| init (k : Nat)
| fill (k id : Nat) (f : Fill)
| post (k : Nat) (status : TaskStatus) (pprIndex id : Nat)
    (mem : Memory) (writeMap : RangeMap Bytes)
| chain (status : TaskStatus) (id1 id2 : Nat)

/-
  What the caller answers for: ranges in the address space,
  a proper write map, and channels that are not zero.
-/
def BoardCall.Ok : BoardCall → Prop
| .init _ => True
| .fill _ _ f => f.Fits
| .post _ _ _ _ _ writeMap => writeMap.WellFormed
| .chain _ id1 id2 => id1 ≠ 0 ∧ id2 ≠ 0

/-
  The board, the local records, and for each slot the bytes
  of the last post on it.
-/
structure BoardState where
  board : SwitchBoard
  locals : Nat → LocalChannel
  sent : Nat → Set Nat

/- A freshly initialised board, with nothing filled. -/
def freshBoard (size gs : Nat) : BoardState where
  board := postwaitInit size gs
  locals := fun _ => ⟨0, initEmptyMap⟩
  sent := fun _ => ∅

/- `init` is the `ppr_reset` at the start of a task. -/
def BoardCall.run : BoardCall → BoardState → Outcome BoardState
| .init k, st =>
    .ret { st with
      locals := Function.update st.locals k
        (channelLocalReset (st.locals k)) }
| .fill k id f, st => do
    let ch ← channelFill f.status id (st.locals k) f.base
      f.size
    .ret { st with locals := Function.update st.locals k ch }
| .post k status pprIndex id mem writeMap, st => do
    let (board, localCh, _) ← channelPost status pprIndex id
      mem st.board (st.locals k) writeMap
    .ret
      { board := board
        locals := Function.update st.locals k localCh
        sent :=
          if Posts status (st.locals k) id st.board then
            Function.update st.sent (st.board.index id)
              ((st.locals k).data.covered ∩
                writeMap.covered)
          else st.sent }
| .chain status id1 id2, st => do
    let board ← channelChain status id1 id2 st.board
    .ret { st with board := board }

/- The state after all calls of a sequence returned. -/
def runCalls
    (calls : List BoardCall)
    (st : BoardState) :
    Outcome BoardState :=
  calls.foldlM (fun st call => call.run st) st

------------------------------------------------------------
-- What Chaining Leaves
------------------------------------------------------------

/-
  A change of pointers and flags: no name and no data is
  lost, and the slots in no list stay as they are.
-/
structure Relinks (board board' : SwitchBoard) : Prop where
  same : SameData board board'
  loose : ∀ i, board'.first i = none →
    board'.channels i = board.channels i

theorem Relinks.trans
    {board mid board' : SwitchBoard}
    (h : Relinks board mid)
    (h' : Relinks mid board') :
    Relinks board board' := by
  refine ⟨h.same.trans h'.same, ?_⟩
  intro i hNone
  have hMid := h'.loose i hNone
  rw [hMid]
  apply h.loose
  unfold SwitchBoard.first at hNone ⊢
  rw [← hMid]
  exact hNone

theorem relinks_setChain
    (board : SwitchBoard)
    (x f : Nat)
    (nxt : Option Nat)
    (posted : Bool) :
    Relinks board (setChain board x (some f) nxt posted) := by
  refine ⟨sameData_set board rfl rfl, ?_⟩
  intro i hNone
  unfold setChain at hNone ⊢
  by_cases hi : i = x
  · unfold SwitchBoard.first at hNone
    rw [hi, board.set_channels_self] at hNone
    cases hNone
  · exact board.set_channels_of_ne _ hi

/- The second loop of `connect_chain`. -/
theorem appendChain_relinks
    {head : Nat}
    {posted : Bool}
    (fuel : Nat)
    {board board' : SwitchBoard}
    {p : Option Nat}
    (h : appendChain head posted fuel board p = some board') :
    Relinks board board' := by
  induction fuel generalizing board p with
  | zero =>
      cases p with
      | none =>
          cases h
          exact ⟨.refl _, fun _ _ => rfl⟩
      | some i => cases h
  | succ fuel ih =>
      cases p with
      | none =>
          cases h
          exact ⟨.refl _, fun _ _ => rfl⟩
      | some i =>
          unfold appendChain at h
          exact (relinks_setChain board i head _ posted).trans
            (ih h)

theorem connectChain_relinks
    {board board' : SwitchBoard}
    {head newCh : Nat}
    {posted : Bool}
    (h : connectChain board head newCh posted =
      some board') :
    Relinks board board' := by
  unfold connectChain at h
  rw [Option.bind_eq_bind, Option.bind_eq_some_iff] at h
  rcases h with ⟨p, _, hLoop⟩
  exact (relinks_setChain board p head _ posted).trans
    (appendChain_relinks _ hLoop)

theorem chainSlots_relinks
    {board board' : SwitchBoard}
    {ch1 ch2 : Nat}
    (h : chainSlots board ch1 ch2 = some board') :
    Relinks board board' := by
  unfold chainSlots at h
  dsimp only at h
  split at h
  · rw [Option.some.injEq] at h
    rw [← h]
    exact (relinks_setChain board ch1 ch1 _ _).trans
      (relinks_setChain _ ch2 ch1 _ _)
  · exact connectChain_relinks h
  · exact connectChain_relinks h

/-
  Slots keep their names and data, except that one without a
  name may get one, with empty data.
-/
def Renames (board board' : SwitchBoard) : Prop :=
  ∀ i,
    ((board'.channels i).id = (board.channels i).id ∧
      (board'.channels i).data = (board.channels i).data) ∨
    ((board.channels i).id = 0 ∧
      (board'.channels i).data = initEmptyMap)

theorem SameData.renames
    {board board' : SwitchBoard}
    (h : SameData board board') :
    Renames board board' :=
  fun i => Or.inl ⟨h.id i, h.data i⟩

theorem Renames.trans
    {board mid board' : SwitchBoard}
    (h : Renames board mid)
    (h' : Renames mid board') :
    Renames board board' := by
  intro i
  rcases h i with ⟨hId, hData⟩ | ⟨hZero, hEmpty⟩
  · rcases h' i with ⟨hId', hData'⟩ | ⟨hZero', hEmpty'⟩
    · exact Or.inl ⟨hId'.trans hId, hData'.trans hData⟩
    · exact Or.inr ⟨hId ▸ hZero', hEmpty'⟩
  · rcases h' i with ⟨_, hData'⟩ | ⟨_, hEmpty'⟩
    · exact Or.inr ⟨hZero, hData'.trans hEmpty⟩
    · exact Or.inr ⟨hZero, hEmpty'⟩

theorem renames_allocate
    (board : SwitchBoard)
    (id : Nat) :
    Renames board (board.allocate id) := by
  intro i
  by_cases hi : i = board.index id
  · rw [hi]
    unfold SwitchBoard.allocate getChannel
    dsimp only
    split
    · exact Or.inl ⟨rfl, rfl⟩
    · split
      · rename_i hZero
        right
        refine ⟨hZero, ?_⟩
        rw [board.set_channels_self]
      · exact Or.inl ⟨rfl, rfl⟩
  · rw [board.allocate_of_ne hi]
    exact Or.inl ⟨rfl, rfl⟩

/- `channel_chain` allocates, and then sets pointers. -/
theorem channelChain_inv
    {status : TaskStatus}
    {id1 id2 : Nat}
    {board board' : SwitchBoard}
    (h : channelChain status id1 id2 board = .ret board') :
    board' = board ∨
      Relinks ((board.allocate id1).allocate id2) board' := by
  cases hStatus : status.aside with
  | true =>
      unfold channelChain at h
      rw [if_pos hStatus, Outcome.ret.injEq] at h
      exact Or.inl h.symm
  | false =>
      right
      rw [channelChain_eq id1 id2 board hStatus] at h
      split at h
      · rw [Outcome.ret.injEq] at h
        rw [h]
        exact ⟨.refl _, fun _ _ => rfl⟩
      · rw [Outcome.ofOption_eq_ret_iff] at h
        exact chainSlots_relinks h

------------------------------------------------------------
-- The Invariant
------------------------------------------------------------

/-
  The lists of the board are in order, posted slots have a
  name, every slot holds the bytes of the last post on it,
  and a local record without a channel is empty.
-/
structure BoardState.Consistent (st : BoardState) : Prop where
  orderly : st.board.Orderly
  named : ∀ i, (st.board.channels i).isPosted = true →
    (st.board.channels i).id ≠ 0
  data : ∀ i, (st.board.channels i).data.WellFormed
  covered : ∀ i,
    (st.board.channels i).data.covered = st.sent i
  unsent : ∀ i, (st.board.channels i).id = 0 → st.sent i = ∅
  locals : ∀ k, (st.locals k).data.WellFormed
  idle : ∀ k, (st.locals k).id = 0 → (st.locals k).Empty

theorem consistent_freshBoard
    {size gs : Nat}
    (hSize : 0 < (postwaitInit size gs).size) :
    (freshBoard size gs).Consistent := by
  constructor
  · exact orderly_postwaitInit hSize
  · intro i hPosted
    cases hPosted
  · exact fun _ => keeps_initEmptyMap 1
  · exact fun _ => covered_initEmptyMap
  · exact fun _ _ => rfl
  · exact fun _ => keeps_initEmptyMap 1
  · exact fun _ _ => ⟨rfl, rfl, rfl⟩

theorem LocalChannel.Empty.wellFormed
    {ch : LocalChannel}
    (h : ch.Empty) :
    ch.data.WellFormed := by
  have hRanges : ch.data.ranges = [] :=
    ranges_eq_nil_iff.mpr h.root
  constructor
  · rw [hRanges]
    exact Apart.nil
  · rw [hRanges, h.size]
    rfl

/- An empty record has nothing that a post could cut. -/
theorem LocalChannel.Empty.mapIntersect
    {ch : LocalChannel}
    (h : ch.Empty)
    (ref : RangeMap Bytes) :
    Cbop.mapIntersect ch.data ref = some ch.data := by
  unfold Cbop.mapIntersect
  rw [h.root]
  rfl

namespace BoardState.Consistent

variable {st st' : BoardState}

/- One local record changes. -/
theorem setLocal
    (h : st.Consistent)
    (k : Nat)
    {ch : LocalChannel}
    (hWell : ch.data.WellFormed)
    (hIdle : ch.id = 0 → ch.Empty) :
    BoardState.Consistent
      { st with locals := Function.update st.locals k ch } := by
  refine ⟨h.orderly, h.named, h.data, h.covered, h.unsent,
    ?_, ?_⟩
  · intro k'
    dsimp only
    rcases eq_or_ne k' k with rfl | hNe
    · rw [Function.update_self]
      exact hWell
    · rw [Function.update_of_ne hNe]
      exact h.locals k'
  · intro k'
    dsimp only
    rcases eq_or_ne k' k with rfl | hNe
    · rw [Function.update_self]
      exact hIdle
    · rw [Function.update_of_ne hNe]
      exact h.idle k'

/- A slot that is posted keeps its name in a new post. -/
theorem rejected_board
    (h : st.Consistent)
    {board' : SwitchBoard}
    {id : Nat}
    (hBoard' : board' = st.board ∨
      ¬st.board.Taken id ∧
      (st.board.channels (st.board.index id)).isPosted =
        true ∧
      board' = st.board.set (st.board.index id)
        { st.board.channels (st.board.index id) with
          id := id }) :
    board' = st.board := by
  rcases hBoard' with hOld | ⟨hFree, hPosted, hOld⟩
  · exact hOld
  · have hNe := h.named _ hPosted
    have hId :
        (st.board.channels (st.board.index id)).id = id := by
      by_contra hOther
      exact hFree ⟨hNe, hOther⟩
    rw [hOld, st.board.set_id_self hId]

/- The record after a rejected post is still a proper one. -/
theorem cut_local
    (h : st.Consistent)
    (k : Nat)
    {writeMap data : RangeMap Bytes}
    (hWrite : writeMap.WellFormed)
    (hData : mapIntersect (st.locals k).data writeMap =
      some data) :
    data.WellFormed ∧
      ((st.locals k).id = 0 →
        ({ st.locals k with data := data } :
          LocalChannel).Empty) := by
  rcases mapIntersect_spec (h.locals k) hWrite with
    ⟨data₁, hData₁, hWell, _⟩
  rw [hData, Option.some.injEq] at hData₁
  subst hData₁
  refine ⟨hWell, ?_⟩
  intro hZero
  have hEmpty := h.idle k hZero
  rw [hEmpty.mapIntersect, Option.some.injEq] at hData
  rw [← hData]
  exact hEmpty

theorem fill
    (h : st.Consistent)
    {k id : Nat}
    {f : Fill}
    (hFits : f.Fits)
    (hRun : (BoardCall.fill k id f).run st = .ret st') :
    st'.Consistent := by
  unfold BoardCall.run at hRun
  rw [Outcome.bind_eq_ret_iff] at hRun
  rcases hRun with ⟨ch, hFill, hRet⟩
  rw [Outcome.ret.injEq] at hRet
  rw [← hRet]
  have hWell :=
    channelFill_wellFormed hFits (h.locals k) hFill
  apply h.setLocal k hWell
  intro hZero
  rcases channelFill_inv hFill with
    ⟨_, hSame⟩ | ⟨_, hPos, _, _, hOwn, _⟩
  · rw [hSame] at hZero ⊢
    exact h.idle k hZero
  · exact absurd (hOwn.symm.trans hZero) hPos

/- After a post the marked slots have names. -/
theorem posted_named
    (h : st.Consistent)
    {board' : SwitchBoard}
    {id : Nat}
    (hId : id ≠ 0)
    (hOrderly : board'.Orderly)
    (hReleased : Released st.board board' id)
    (i : Nat)
    (hPosted : (board'.channels i).isPosted = true) :
    (board'.channels i).id ≠ 0 := by
  by_cases hi : i = st.board.index id
  · rw [hi, hReleased.id_self]
    exact hId
  · rw [hReleased.posted] at hPosted
    rcases hPosted with hOld | hSame | ⟨f, _, hFirst⟩
    · rw [hReleased.id_other i hi]
      exact h.named i hOld
    · exact absurd hSame.symm hi
    · apply hOrderly.linked i f
      rw [hReleased.first]
      exact hFirst

/- The board after a post, with the bytes it sent. -/
theorem posted
    (h : st.Consistent)
    {status : TaskStatus}
    {pprIndex id : Nat}
    {mem : Memory}
    {board' : SwitchBoard}
    {localCh localCh' : LocalChannel}
    {writeMap writeMap' : RangeMap Bytes}
    (hId : id ≠ 0)
    (hPosts : Posts status localCh id st.board)
    (hLocal : localCh.data.WellFormed)
    (hWrite : writeMap.WellFormed)
    (hPost : channelPost status pprIndex id mem st.board
      localCh writeMap = .ret (board', localCh', writeMap')) :
    BoardState.Consistent
      { st with
        board := board'
        sent := Function.update st.sent (st.board.index id)
          (localCh.data.covered ∩ writeMap.covered) } := by
  rcases channelPost_posted hPosts hLocal hWrite hPost with
    ⟨hName, hPublishes, hOthers, _, _, _⟩
  have hReleased := channelPost_released h.orderly.listed
    h.orderly.size hPosts hPost
  have hOrderly := (h.orderly.post hId hPost).1
  refine ⟨hOrderly, h.posted_named hId hOrderly hReleased,
    ?_, ?_, ?_, h.locals, h.idle⟩
  · intro i
    by_cases hi : i = st.board.index id
    · rw [hi]
      exact hPublishes.wellFormed
    · rw [(hOthers i hi).2]
      exact h.data i
  · intro i
    dsimp only
    by_cases hi : i = st.board.index id
    · rw [hi, Function.update_self]
      exact Set.ext hPublishes.covered
    · rw [Function.update_of_ne hi, (hOthers i hi).2]
      exact h.covered i
  · intro i hZero
    dsimp only at hZero ⊢
    by_cases hi : i = st.board.index id
    · rw [hi, hName] at hZero
      exact absurd hZero hId
    · rw [(hOthers i hi).1] at hZero
      rw [Function.update_of_ne hi]
      exact h.unsent i hZero

theorem post
    (h : st.Consistent)
    {k : Nat}
    {status : TaskStatus}
    {pprIndex id : Nat}
    {mem : Memory}
    {writeMap : RangeMap Bytes}
    (hWrite : writeMap.WellFormed)
    (hRun : (BoardCall.post k status pprIndex id mem
      writeMap).run st = .ret st') :
    st'.Consistent := by
  unfold BoardCall.run at hRun
  rw [Outcome.bind_eq_ret_iff] at hRun
  rcases hRun with
    ⟨⟨board', localCh', writeMap'⟩, hPost, hRet⟩
  rw [Outcome.ret.injEq] at hRet
  rw [← hRet]
  rcases channelPost_inv hPost with
    ⟨hIgnored, hBoard', hLocal', _⟩ |
    ⟨hId, data, hData, ⟨hRejected, hBoard', hLocal', _⟩ |
      ⟨hPosts, _, _, hLocal'⟩⟩
  · have hNot : ¬Posts status (st.locals k) id st.board :=
      fun hPosts =>
        not_ignored hPosts.status hPosts.serves hIgnored
    simp only [hNot, if_false, hBoard', hLocal']
    exact h.setLocal k (h.locals k) (h.idle k)
  · simp only [hRejected.not_posts, if_false,
      h.rejected_board hBoard', hLocal']
    rcases h.cut_local k hWrite hData with ⟨hWell, hIdle⟩
    exact h.setLocal k hWell hIdle
  · have hEmpty : localCh'.Empty := by
      rw [hLocal']
      exact empty_channelLocalReset _
    simp only [hPosts, if_true]
    exact (h.posted hId hPosts (h.locals k) hWrite
      hPost).setLocal k hEmpty.wellFormed (fun _ => hEmpty)

theorem chain
    (h : st.Consistent)
    {status : TaskStatus}
    {id1 id2 : Nat}
    (hPos1 : id1 ≠ 0)
    (hPos2 : id2 ≠ 0)
    (hRun : (BoardCall.chain status id1 id2).run st =
      .ret st') :
    st'.Consistent := by
  unfold BoardCall.run at hRun
  rw [Outcome.bind_eq_ret_iff] at hRun
  rcases hRun with ⟨board', hChain, hRet⟩
  rw [Outcome.ret.injEq] at hRet
  rw [← hRet]
  have hOrderly : board'.Orderly := by
    rcases h.orderly.chain status hPos1 hPos2 with
      ⟨_, _, hFault⟩ | ⟨_, board₁, hCall, hOrderly, _⟩
    · rw [hFault] at hChain
      cases hChain
    · rw [hChain, Outcome.ret.injEq] at hCall
      rw [hCall]
      exact hOrderly
  rcases channelChain_inv hChain with hSame | hRelinks
  · rw [hSame]
    exact h
  · obtain ⟨mid, hMid⟩ : ∃ mid, mid =
        (st.board.allocate id1).allocate id2 := ⟨_, rfl⟩
    rw [← hMid] at hRelinks
    have hAllocate : Renames st.board mid := by
      rw [hMid]
      exact (renames_allocate st.board id1).trans
        (renames_allocate _ id2)
    have hRenames := hAllocate.trans hRelinks.same.renames
    refine ⟨hOrderly, ?_, ?_, ?_, ?_, h.locals, h.idle⟩
    · intro i hPosted
      cases hFirst : board'.first i with
      | some f => exact hOrderly.linked i f hFirst
      | none =>
          -- a slot in no list has the flag it had
          have hOld := hRelinks.loose i hFirst
          dsimp only at hPosted ⊢
          have hWas :
              (st.board.channels i).isPosted = true := by
            rw [hOld, hMid] at hPosted
            simpa using hPosted
          rcases hRenames i with ⟨hId, _⟩ | ⟨hZero, _⟩
          · rw [hId]
            exact h.named i hWas
          · exact absurd hZero (h.named i hWas)
    · intro i
      rcases hRenames i with ⟨_, hData⟩ | ⟨_, hEmpty⟩
      · rw [hData]
        exact h.data i
      · rw [hEmpty]
        exact keeps_initEmptyMap 1
    · intro i
      rcases hRenames i with ⟨_, hData⟩ | ⟨hZero, hEmpty⟩
      · rw [hData]
        exact h.covered i
      · rw [hEmpty, covered_initEmptyMap, h.unsent i hZero]
    · intro i hZero'
      rcases hRenames i with ⟨hId, _⟩ | ⟨hZero, _⟩
      · exact h.unsent i (hId.symm.trans hZero')
      · exact h.unsent i hZero

/- Every call that returns keeps the invariant. -/
theorem run
    (h : st.Consistent)
    {call : BoardCall}
    (hOk : call.Ok)
    (hRun : call.run st = .ret st') :
    st'.Consistent := by
  cases call with
  | init k =>
      have hEmpty := empty_channelLocalReset (st.locals k)
      unfold BoardCall.run at hRun
      rw [Outcome.ret.injEq] at hRun
      rw [← hRun]
      exact h.setLocal k hEmpty.wellFormed (fun _ => hEmpty)
  | fill k id f => exact h.fill hOk hRun
  | post k status pprIndex id mem writeMap =>
      exact h.post hOk hRun
  | chain status id1 id2 => exact h.chain hOk.1 hOk.2 hRun

theorem runCalls
    (h : st.Consistent)
    (calls : List BoardCall)
    (hOk : ∀ call ∈ calls, call.Ok)
    (hRun : runCalls calls st = .ret st') :
    st'.Consistent := by
  induction calls generalizing st with
  | nil =>
      have hEq : st = st' := by
        simpa [Cbop.runCalls] using hRun
      rw [← hEq]
      exact h
  | cons call rest ih =>
      unfold Cbop.runCalls at hRun
      rw [List.foldlM_cons, Outcome.bind_eq_ret_iff] at hRun
      rcases hRun with ⟨next, hNext, hRest⟩
      exact ih (h.run (hOk call List.mem_cons_self) hNext)
        (fun c hc => hOk c (List.mem_cons_of_mem call hc))
        hRest

end BoardState.Consistent

/- So it holds whenever calls on a fresh board returned. -/
theorem consistent_runCalls
    {size gs : Nat}
    {calls : List BoardCall}
    {st : BoardState}
    (hSize : 0 < (postwaitInit size gs).size)
    (hOk : ∀ call ∈ calls, call.Ok)
    (hRun : runCalls calls (freshBoard size gs) = .ret st) :
    st.Consistent :=
  (consistent_freshBoard hSize).runCalls calls hOk hRun

end Cbop
