import Cbop.PostWait.Orderly

/-
  What a successful post leaves: the filled bytes that the
  task wrote are on the board, with the values they have in
  memory, and no longer in the task's write map.

  The marks that a post sets on the chain of its channel
  change no data, so this holds of chained channels as well.

  Main declarations:
    * `SameData`, `postSlot_data`
    * `Fill`, `fillAll`
    * `Publishes`, `channelPost_publishes`
-/

namespace Cbop

------------------------------------------------------------
-- Data on the Board
------------------------------------------------------------

/- Every slot has the name and the data it had. -/
structure SameData (board board' : SwitchBoard) : Prop where
  id : ∀ i, (board'.channels i).id = (board.channels i).id
  data : ∀ i,
    (board'.channels i).data = (board.channels i).data

theorem SameData.refl
    (board : SwitchBoard) :
    SameData board board :=
  ⟨fun _ => rfl, fun _ => rfl⟩

theorem SameData.trans
    {board mid board' : SwitchBoard}
    (h : SameData board mid)
    (h' : SameData mid board') :
    SameData board board' :=
  ⟨fun i => (h'.id i).trans (h.id i),
    fun i => (h'.data i).trans (h.data i)⟩

/- Flags and pointers are no data. -/
theorem sameData_set
    (board : SwitchBoard)
    {x : Nat}
    {ch : Channel}
    (hId : ch.id = (board.channels x).id)
    (hData : ch.data = (board.channels x).data) :
    SameData board (board.set x ch) := by
  constructor
  · intro i
    by_cases hi : i = x
    · rw [hi, board.set_channels_self, hId]
    · rw [board.set_channels_of_ne ch hi]
  · intro i
    by_cases hi : i = x
    · rw [hi, board.set_channels_self, hData]
    · rw [board.set_channels_of_ne ch hi]

/- The loop of `channel_post` sets flags only. -/
theorem postChain_sameData
    (fuel : Nat)
    {board board' : SwitchBoard}
    {p : Option Nat}
    (h : postChain fuel board p = some board') :
    SameData board board' := by
  induction fuel generalizing board p with
  | zero =>
      cases p with
      | none =>
          cases h
          exact .refl _
      | some i => cases h
  | succ fuel ih =>
      cases p with
      | none =>
          cases h
          exact .refl _
      | some i =>
          unfold postChain at h
          have hMark := sameData_set board
            (show (markPosted (board.channels i)).id = _ from rfl)
            rfl
          exact hMark.trans (ih h)

/- A post fills its own slot and leaves the other data. -/
theorem postSlot_data
    {board board' : SwitchBoard}
    {i : Nat}
    {ch : Channel}
    (h : postSlot board i ch = .ret board') :
    (board'.channels i).id = ch.id ∧
      (board'.channels i).data = ch.data ∧
      ∀ j, j ≠ i →
        (board'.channels j).id = (board.channels j).id ∧
        (board'.channels j).data =
          (board.channels j).data := by
  have hSame :
      ∃ marked, marked.id = ch.id ∧ marked.data = ch.data ∧
        SameData (board.set i marked) board' := by
    unfold postSlot at h
    split at h
    · rw [Outcome.ret.injEq] at h
      exact ⟨{ ch with isPosted := true }, rfl, rfl,
        h ▸ .refl _⟩
    · rw [Outcome.ofOption_eq_ret_iff] at h
      exact ⟨ch, rfl, rfl, postChain_sameData _ h⟩
  rcases hSame with ⟨marked, hId, hData, hBoard⟩
  refine ⟨?_, ?_, ?_⟩
  · rw [hBoard.id, board.set_channels_self, hId]
  · rw [hBoard.data, board.set_channels_self, hData]
  · intro j hj
    rw [hBoard.id, hBoard.data, board.set_channels_of_ne _ hj]
    exact ⟨rfl, rfl⟩

------------------------------------------------------------
-- Filling
------------------------------------------------------------

/- A `channel_fill` call, on a channel given elsewhere. -/
structure Fill where
  status : TaskStatus
  base : Nat
  size : Nat
deriving DecidableEq, Repr

/- The bytes named by the call end in the address space. -/
def Fill.Fits (f : Fill) : Prop :=
  f.base + f.size % 2 ^ 32 < 2 ^ 64

instance (f : Fill) : Decidable f.Fits :=
  inferInstanceAs (Decidable (_ < _))

/- A sequence of `channel_fill` calls on one channel. -/
def fillAll
    (id : Nat)
    (fills : List Fill)
    (ch : LocalChannel) :
    Outcome LocalChannel :=
  fills.foldlM
    (fun ch f => channelFill f.status id ch f.base f.size) ch

/- A fill adds a range, or is ignored. -/
theorem channelFill_inv
    {status : TaskStatus}
    {id base size : Nat}
    {ch ch' : LocalChannel}
    (h : channelFill status id ch base size = .ret ch') :
    ((status.aside = true ∨ ¬ch.Serves id) ∧ ch' = ch) ∨
    (status.aside = false ∧ id ≠ 0 ∧ ch.Serves id ∧
      0 < size % 2 ^ 32 ∧ ch'.id = id ∧
      ch'.data =
        mapAddRange ch.data base (size % 2 ^ 32) none) := by
  unfold channelFill at h
  cases hStatus : status.aside with
  | true =>
      rw [if_pos hStatus, Outcome.ret.injEq] at h
      exact Or.inl ⟨Or.inl rfl, h.symm⟩
  | false =>
      rw [hStatus, if_neg Bool.false_ne_true,
        Outcome.bind_eq_ret_iff] at h
      rcases h with ⟨has, hHas, h⟩
      unfold hasLocalChannel at hHas
      by_cases hId : id = 0
      · rw [if_pos hId] at hHas
        cases hHas
      · rw [if_neg hId, Outcome.ret.injEq] at hHas
        by_cases hServes : ch.Serves id
        · have hTrue : has = true := by
            rw [← hHas]
            simpa [LocalChannel.Serves] using hServes
          rw [hTrue, if_pos rfl] at h
          dsimp only at h
          split at h
          · cases h
          · rename_i hSize
            rw [Outcome.ret.injEq] at h
            refine Or.inr ⟨rfl, hId, hServes, by omega, ?_, ?_⟩
            · rw [← h]
              rcases hServes with hZero | hOwn
              · simp [hZero]
              · simp [hOwn, hId]
            · rw [← h]
        · have hFalse : has = false := by
            rw [← hHas]
            simpa [LocalChannel.Serves] using hServes
          rw [hFalse, if_neg Bool.false_ne_true,
            Outcome.ret.injEq] at h
          exact Or.inl ⟨Or.inr hServes, h.symm⟩

/- The filled ranges stay a proper map. -/
theorem channelFill_wellFormed
    {status : TaskStatus}
    {id base size : Nat}
    {ch ch' : LocalChannel}
    (hFits : base + size % 2 ^ 32 < 2 ^ 64)
    (hCh : ch.data.WellFormed)
    (h : channelFill status id ch base size = .ret ch') :
    ch'.data.WellFormed := by
  rcases channelFill_inv h with
    ⟨_, hSame⟩ | ⟨_, _, _, hPos, _, hData⟩
  · rw [hSame]
    exact hCh
  · rw [hData]
    exact (mapAddRange_spec none hCh hPos hFits).1

theorem fillAll_wellFormed
    {id : Nat}
    (fills : List Fill)
    {ch ch' : LocalChannel}
    (hFits : ∀ f ∈ fills, f.Fits)
    (hCh : ch.data.WellFormed)
    (h : fillAll id fills ch = .ret ch') :
    ch'.data.WellFormed := by
  induction fills generalizing ch with
  | nil =>
      have hEq : ch = ch' := by
        simpa [fillAll] using h
      rw [← hEq]
      exact hCh
  | cons f rest ih =>
      unfold fillAll at h
      rw [List.foldlM_cons, Outcome.bind_eq_ret_iff] at h
      rcases h with ⟨next, hNext, hRest⟩
      apply ih (fun g hg => hFits g (List.mem_cons_of_mem f hg))
        _ hRest
      exact channelFill_wellFormed (hFits f List.mem_cons_self)
        hCh hNext

------------------------------------------------------------
-- A Successful Post
------------------------------------------------------------

/-
  The data of a post: ranges that cover these bytes, each
  with the bytes that memory has there.
-/
structure Publishes
    (data : RangeMap Bytes)
    (bytes : Set Nat)
    (mem : Memory) : Prop where
  wellFormed : data.WellFormed
  covered : ∀ a, a ∈ data.covered ↔ a ∈ bytes
  values : ∀ r ∈ data.ranges, ∃ record,
    r.record = some record ∧ record.length = r.size ∧
      ∀ j, j < r.size → record[j]? = some (mem (r.base + j))

/- A patch publishes what its map covers. -/
theorem publishes_createPatch
    (mem : Memory)
    {map : RangeMap Bytes}
    (hMap : map.WellFormed) :
    Publishes (createPatch mem map) map.covered mem := by
  have hRanges := ranges_createPatch mem hMap
  refine ⟨createPatch_wellFormed mem hMap, ?_, ?_⟩
  · intro a
    unfold RangeMap.covered
    rw [hRanges]
    change a ∈ covered (map.ranges.map (restored _)) ↔ _
    rw [covered_map_restored]
  · rw [hRanges]
    intro r hr
    rcases List.mem_map.mp hr with ⟨s, _, rfl⟩
    refine ⟨loadBytes mem s.base s.size, rfl,
      by simp [loadBytes, loadRange, newNode], ?_⟩
    intro j hj
    have hIndex : j < s.size := hj
    simp [loadBytes, hIndex, loadRange, newNode]

/- Nothing is filled. -/
structure LocalChannel.Empty (ch : LocalChannel) : Prop where
  id : ch.id = 0
  root : ch.data.root = .nil
  size : ch.data.size = 0

theorem empty_channelLocalReset
    (ch : LocalChannel) :
    (channelLocalReset ch).Empty :=
  ⟨rfl, rfl, rfl⟩

/- A post that returns has published and reset. -/
theorem channelPost_posted
    {status : TaskStatus}
    {pprIndex id : Nat}
    {mem : Memory}
    {board board' : SwitchBoard}
    {localCh localCh' : LocalChannel}
    {writeMap writeMap' : RangeMap Bytes}
    (hPosts : Posts status localCh id board)
    (hLocal : localCh.data.WellFormed)
    (hWrite : writeMap.WellFormed)
    (h : channelPost status pprIndex id mem board localCh
      writeMap = .ret (board', localCh', writeMap')) :
    (board'.channels (board.index id)).id = id ∧
    Publishes (board'.channels (board.index id)).data
      (localCh.data.covered ∩ writeMap.covered) mem ∧
    (∀ j, j ≠ board.index id →
      (board'.channels j).id = (board.channels j).id ∧
      (board'.channels j).data = (board.channels j).data) ∧
    writeMap'.WellFormed ∧
    writeMap'.covered =
      writeMap.covered \ localCh.data.covered ∧
    localCh'.Empty := by
  rcases channelPost_inv h with
    ⟨hIgnored, _, _, _⟩ |
    ⟨_, data, hData, ⟨hRejected, _, _, _⟩ |
      ⟨_, hSlot, hSub, hReset⟩⟩
  · exact absurd hIgnored
      (not_ignored hPosts.status hPosts.serves)
  · exact absurd hPosts hRejected.not_posts
  · rcases mapIntersect_spec hLocal hWrite with
      ⟨data₁, hData₁, hWell, hCovered⟩
    rw [hData, Option.some.injEq] at hData₁
    subst hData₁
    rcases mapSubtract_spec hWrite hWell with
      ⟨left, hLeft, hLeftWell, hLeftCovered⟩
    rw [hSub, Option.some.injEq] at hLeft
    subst hLeft
    rcases postSlot_data hSlot with ⟨hName, hSelf, hOthers⟩
    refine ⟨hName, ?_, hOthers, hLeftWell, ?_, ?_⟩
    · rw [hSelf, ← hCovered]
      exact publishes_createPatch mem hWell
    · -- the map was intersected before it is subtracted
      rw [hLeftCovered, hCovered, Set.inter_comm]
      exact Set.sdiff_self_inter
    · rw [hReset]
      exact empty_channelLocalReset _

/-
  After any fills of one channel, a post of it that is not
  ignored publishes the bytes of the local record that the
  write map covers, takes these out of the write map and
  resets the record. If the chains of the board are lists,
  it returns.
-/
theorem channelPost_publishes
    {status : TaskStatus}
    (pprIndex : Nat)
    {id : Nat}
    (mem : Memory)
    {board : SwitchBoard}
    {start localCh : LocalChannel}
    {fills : List Fill}
    {writeMap : RangeMap Bytes}
    (hId : id ≠ 0)
    (hStart : start.data.WellFormed)
    (hFits : ∀ f ∈ fills, f.Fits)
    (hFills : fillAll id fills start = .ret localCh)
    (hWrite : writeMap.WellFormed)
    (hPosts : Posts status localCh id board) :
    (∀ board' localCh' writeMap',
      channelPost status pprIndex id mem board localCh
          writeMap = .ret (board', localCh', writeMap') →
        Publishes (board'.channels (board.index id)).data
          (localCh.data.covered ∩ writeMap.covered) mem ∧
        writeMap'.WellFormed ∧
        (∀ a, a ∈ writeMap'.covered ↔
          a ∈ writeMap.covered ∧ a ∉ localCh.data.covered) ∧
        localCh'.Empty) ∧
    (board.Listed → 0 < board.size →
      ∃ board' localCh' writeMap',
        channelPost status pprIndex id mem board localCh
          writeMap = .ret (board', localCh', writeMap')) := by
  have hLocal := fillAll_wellFormed fills hFits hStart hFills
  constructor
  · intro board' localCh' writeMap' hCall
    rcases channelPost_posted hPosts hLocal hWrite hCall
      with ⟨_, hData, _, hWell, hCovered, hReset⟩
    refine ⟨hData, hWell, ?_, hReset⟩
    intro a
    rw [hCovered]
    rfl
  · intro hBoard hSize
    exact channelPost_returns status pprIndex mem hId hBoard
      hSize hLocal hWrite

/- A record of four bytes that cut both changes. -/
def fourFilled : LocalChannel where
  id := 5
  data := mapAddRange initEmptyMap 10 4 none

/- The cut bytes are posted, the others stay written. -/
theorem channelPost_publishes_fourFilled :
    ∃ board' localCh' writeMap',
      channelPost .spec 1 5 (fun _ => 7) (postwaitInit 0 1)
          fourFilled twoChanges =
        .ret (board', localCh', writeMap') ∧
      11 ∈ (board'.channels 5).data.covered ∧
      9 ∈ writeMap'.covered ∧ 11 ∉ writeMap'.covered ∧
      localCh'.Empty := by
  have hEmpty : (initEmptyMap : RangeMap Bytes).WellFormed :=
    keeps_initEmptyMap 1
  have hPosts :
      Posts .spec fourFilled 5 (postwaitInit 0 1) :=
    ⟨rfl, Or.inr rfl, by decide, rfl⟩
  have hFills :
      fillAll 5 [⟨.spec, 10, 4⟩] ⟨0, initEmptyMap⟩ =
        .ret fourFilled := rfl
  rcases channelPost_publishes 1 (fun _ => 7) (by decide)
      hEmpty (by decide) hFills
      (show twoChanges.WellFormed by decide) hPosts with
    ⟨hPublishes, hReturns⟩
  have hBoard := orderly_postwaitInit
    (show 0 < (postwaitInit 0 1).size by decide)
  rcases hReturns hBoard.listed hBoard.size with
    ⟨board', localCh', writeMap', hCall⟩
  rcases hPublishes board' localCh' writeMap' hCall with
    ⟨hData, _, hLeft, hReset⟩
  refine ⟨board', localCh', writeMap', hCall, ?_, ?_, ?_,
    hReset⟩
  · exact (hData.covered 11).mpr ⟨by decide, by decide⟩
  · exact (hLeft 9).mpr ⟨by decide, by decide⟩
  · intro hIn
    exact ((hLeft 11).mp hIn).2 (by decide)

end Cbop
