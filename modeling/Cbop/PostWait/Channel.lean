import Cbop.Merge.Patch

/-
  Channels of `postwait.c`: a task fills a local channel
  with ranges, posts the bytes it wrote of them on the
  switch board, and a later task waits for the post and
  copies it into its memory.

  A post takes the posted bytes out of the sender's write
  map, so that they travel through the channel only.

  Main declarations:
    * `channelFill`, `channelPost`, `channelWait`
    * `channelPost_spec`, `channelWait_spec`
    * `assertNoOverlap_spec`, `channelWait_exact`
-/

namespace Cbop

------------------------------------------------------------
-- The Switch Board
------------------------------------------------------------

/- `task_status_t`. -/
inductive TaskStatus where
| seq
| main
| spec
| undy
deriving DecidableEq, Repr

/-
  `channel_t`. The links of a chain are indices of channels
  on the board.
-/
structure Channel where
  id : Nat
  data : RangeMap Bytes
  sender : Nat
  isPosted : Bool
  ccFirst : Option Nat
  ccNext : Option Nat

/- A channel after the `memset` of `postwait_init`. -/
def blankChannel : Channel where
  id := 0
  data := initEmptyMap
  sender := 0
  isPosted := false
  ccFirst := none
  ccNext := none

/- `switch_board`. -/
structure SwitchBoard where
  channels : Nat → Channel
  size : Nat

/- `postwait_init` on a board of the given size. -/
def postwaitInit
    (size gs : Nat) :
    SwitchBoard where
  channels := fun _ => blankChannel
  size := if size < 10 * gs then 10 * gs else size

def SwitchBoard.index
    (board : SwitchBoard)
    (id : Nat) :
    Nat :=
  id % board.size

/- The channel a pointer into the board sees. -/
def SwitchBoard.set
    (board : SwitchBoard)
    (i : Nat)
    (ch : Channel) :
    SwitchBoard :=
  { board with
    channels := Function.update board.channels i ch }

/- `local_ch_id` and `local_ch_data`. -/
structure LocalChannel where
  id : Nat
  data : RangeMap Bytes

/- `channel_local_reset`. -/
def channelLocalReset (ch : LocalChannel) : LocalChannel where
  id := 0
  data := mapClear ch.data

/- The task does not take part in the group. -/
def TaskStatus.aside : TaskStatus → Bool
| .seq => true
| .undy => true
| _ => false

/- `has_local_channel`. -/
def hasLocalChannel
    (ch : LocalChannel)
    (id : Nat) :
    Outcome Bool :=
  if id = 0 then .fault
  else .ret (ch.id = 0 || ch.id = id)

/-
  `channel_fill`. Its `size` is an `unsigned`, and
  `map_add_range` asserts that it is positive.
-/
def channelFill
    (status : TaskStatus)
    (id : Nat)
    (ch : LocalChannel)
    (base size : Nat) :
    Outcome LocalChannel :=
  if status.aside then .ret ch
  else do
    let has ← hasLocalChannel ch id
    if has then
      let size := size % 2 ^ 32
      if size = 0 then .fault
      else
        .ret
          { id := if ch.id = 0 then id else ch.id
            data := mapAddRange ch.data base size none }
    else .ret ch

/-
  The loop of `channel_post` over a chain. `none` is a loop
  that does not end within the size of the board.
-/
def postChain :
    Nat → SwitchBoard → Option Nat → Option SwitchBoard
| _, board, none => some board
| 0, _, some _ => none
| fuel + 1, board, some i =>
    let ch := board.channels i
    postChain fuel
      (board.set i { ch with isPosted := true }) ch.ccNext

/-
  `channel_post`: the board, the local channel and the write
  map it leaves.
-/
def channelPost
    (status : TaskStatus)
    (pprIndex id : Nat)
    (mem : Memory)
    (board : SwitchBoard)
    (localCh : LocalChannel)
    (writeMap : RangeMap Bytes) :
    Outcome (SwitchBoard × LocalChannel × RangeMap Bytes) :=
  if status.aside then .ret (board, localCh, writeMap)
  else do
    let has ← hasLocalChannel localCh id
    if !has then .ret (board, localCh, writeMap)
    else
      -- write-only data
      let data ← Outcome.ofOption
        (mapIntersect localCh.data writeMap)
      let localCh := { localCh with data := data }
      let i := board.index id
      let ch := board.channels i
      if ch.id ≠ 0 ∧ ch.id ≠ id then
        .ret (board, localCh, writeMap)
      else if ch.isPosted then
        .ret (board.set i { ch with id := id }, localCh,
          writeMap)
      else
        let ch :=
          { ch with
            id := id
            sender := pprIndex
            data := createPatch mem data }
        let board ←
          match ch.ccFirst with
          | none =>
              .ret (board.set i { ch with isPosted := true })
          | some first =>
              Outcome.ofOption
                (postChain board.size (board.set i ch)
                  (some first))
        let writeMap ← Outcome.ofOption
          (mapSubtract writeMap data)
        .ret (board, channelLocalReset localCh, writeMap)

------------------------------------------------------------
-- Waiting
------------------------------------------------------------

/- `assert_no_overlap`. -/
def assertNoOverlap
    (map1 map2 : RangeMap Bytes) :
    Outcome Bool := do
  let copy ← Outcome.ofOption
    (mapIntersect (mapClone map1) map2)
  .ret (copy.size = 0)

/- `receive_range`, on the received map and the memory. -/
def receiveRange
    (sender : Nat)
    (st : RangeMap Bytes × Memory)
    (range : MemRange Bytes) :
    Outcome (RangeMap Bytes × Memory) :=
  match mapAddRangeFromTask st.1 range.base range.size
      range.record sender with
  | .done received approved =>
      .ret (received,
        storeBytes st.2 approved.base approved.size
          (approved.record.getD []))
  | .refused _ => .abort
  | .fault => .fault

/-
  The first channel of a chain with data, from a channel
  on, or the last of the chain.
-/
def firstWithData
    (board : SwitchBoard) :
    Nat → Channel → Option Channel
| 0, _ => none
| fuel + 1, ch =>
    if ch.data.size = 0 then
      match ch.ccNext with
      | none => some ch
      | some next =>
          firstWithData board fuel (board.channels next)
    else some ch

/- The channel `channel_wait` receives from. -/
def waitSource
    (board : SwitchBoard)
    (ch : Channel) :
    Outcome Channel :=
  match ch.ccFirst with
  | none => .ret ch
  | some first => do
      let found ← Outcome.ofOption
        (firstWithData board (board.size + 1)
          (board.channels first))
      if found.data.size = 0 then .fault else .ret found

/-
  `channel_wait`: the received map and the memory it leaves.
  `none` while the channel is not posted.
-/
def channelWait
    (status : TaskStatus)
    (id : Nat)
    (board : SwitchBoard)
    (readMap writeMap received : RangeMap Bytes)
    (mem : Memory) :
    Option (Outcome (RangeMap Bytes × Memory)) :=
  if status ≠ .spec then some (.ret (received, mem))
  else
    let ch := board.channels (board.index id)
    if !ch.isPosted then none
    else if ch.id ≠ id then some .abort
    else
      some (do
        let ch ← waitSource board ch
        let noRead ← assertNoOverlap ch.data readMap
        let noWrite ←
          if noRead then assertNoOverlap ch.data writeMap
          else .ret false
        if !noWrite then .ret (received, mem)
        else
          ch.data.ranges.foldlM (receiveRange ch.sender)
            (received, mem))

------------------------------------------------------------
-- The Check for Modifications After a Post
------------------------------------------------------------

/-
  `mdfy_aftr_pst_chk` of a task, which re-roots the patch it
  looks in.
-/
def mdfyAftrPstChk
    (specOrder pprIndex : Nat)
    (patches : Nat → RangeMap Bytes)
    (mem : MemRange Bytes) :
    Outcome (Nat → RangeMap Bytes) := do
  -- unsigned: spec_order - (BOP_ppr_index() - mem->task)
  let sender :=
    (specOrder + mem.task + (2 ^ 32 - pprIndex % 2 ^ 32)) %
      2 ^ 32
  let (patch, found) ←
    mapFind (patches sender) mem.base
  let committed :=
    ((found.record.getD []).drop
      (mem.base - found.base)).take mem.size
  if committed = (mem.record.getD []).take mem.size then
    .ret (Function.update patches sender patch)
  else .abort

/- `ppr_commit` of the post-wait port. -/
def postwaitCommit
    (specOrder pprIndex : Nat)
    (patches : Nat → RangeMap Bytes)
    (receivedNUsed : RangeMap Bytes) :
    Outcome (Nat → RangeMap Bytes) :=
  if receivedNUsed.size = 0 then .ret patches
  else
    receivedNUsed.ranges.foldlM
      (mdfyAftrPstChk specOrder pprIndex) patches

------------------------------------------------------------
-- What a Post Publishes
------------------------------------------------------------

/- The local channel is free or used for this id. -/
def LocalChannel.Serves
    (ch : LocalChannel)
    (id : Nat) : Prop :=
  ch.id = 0 ∨ ch.id = id

theorem hasLocalChannel_of_serves
    {ch : LocalChannel}
    {id : Nat}
    (hId : id ≠ 0)
    (hServes : ch.Serves id) :
    hasLocalChannel ch id = .ret true := by
  unfold hasLocalChannel
  rw [if_neg hId]
  rcases hServes with h | h <;> simp [h]

/- Filling one range above those already filled adds it. -/
theorem channelFill_spec
    {status : TaskStatus}
    {id : Nat}
    {ch : LocalChannel}
    {r : MemRange Bytes}
    (hStatus : status.aside = false)
    (hId : id ≠ 0)
    (hServes : ch.Serves id)
    (hCh : ch.data.WellFormed)
    (hR : r.Valid)
    (hSmall : r.size < 2 ^ 32)
    (hBelow : ∀ b ∈ ch.data.covered, b < r.base) :
    ∃ ch',
      channelFill status id ch r.base r.size = .ret ch' ∧
      (ch'.Serves id ∧ ch'.data.WellFormed) ∧
      ch'.data.covered = ch.data.covered ∪ r.addrs := by
  have hPos := hR.pos
  have hMod : r.size % 2 ^ 32 = r.size :=
    Nat.mod_eq_of_lt hSmall
  have hNe : r.size ≠ 0 := by omega
  rcases mapAddRange_above none hCh hR.pos hR.fits
      hBelow with
    ⟨hWell, hCovered⟩
  refine ⟨{ id := if ch.id = 0 then id else ch.id
            data := mapAddRange ch.data r.base r.size
              none },
    ?_, ⟨?_, hWell⟩, hCovered⟩
  · unfold channelFill
    rw [hasLocalChannel_of_serves hId hServes]
    simp only [hStatus, Bool.false_eq_true, if_false,
      Outcome.ret_bind, if_true, hMod, hNe]
  · rcases hServes with h | h <;>
      simp [LocalChannel.Serves, h]

/- Filling ranges in order adds them all. -/
theorem foldlM_channelFill
    {status : TaskStatus}
    {id : Nat}
    (hStatus : status.aside = false)
    (hId : id ≠ 0)
    (ranges : List (MemRange Bytes))
    (ch : LocalChannel)
    (hServes : ch.Serves id)
    (hCh : ch.data.WellFormed)
    (hApart : Apart 1 ranges)
    (hSmall : ∀ r ∈ ranges, r.size < 2 ^ 32)
    (hBelow : ∀ b ∈ ch.data.covered,
      ∀ r ∈ ranges, b < r.base) :
    ∃ ch',
      ranges.foldlM (fun ch r =>
        channelFill status id ch r.base r.size) ch =
        .ret ch' ∧
      ch'.Serves id ∧ ch'.data.WellFormed ∧
      ch'.data.covered =
        ch.data.covered ∪ covered ranges := by
  have hFold := foldlM_ascending LocalChannel.data
    (fun ch => ch.Serves id ∧ ch.data.WellFormed) Set.univ
    ranges ch hApart ⟨hServes, hCh⟩ hBelow (by
      intro ch r hr hInv hBelow
      rw [Set.inter_univ]
      exact channelFill_spec hStatus hId hInv.1 hInv.2
        (hApart.valid r hr) (hSmall r hr) hBelow)
  rcases hFold with ⟨ch', hRet, hInv', hCovered'⟩
  rw [Set.inter_univ] at hCovered'
  exact ⟨ch', hRet, hInv'.1, hInv'.2, hCovered'⟩

/- A channel on which nothing was posted or chained. -/
structure Channel.Open
    (ch : Channel)
    (id : Nat) : Prop where
  id : ch.id = 0 ∨ ch.id = id
  isPosted : ch.isPosted = false
  ccFirst : ch.ccFirst = none

/-
  A channel holds the posted values: those `mem` has at
  `bytes`, sent by the task with this index.
-/
structure Channel.Carries
    (ch : Channel)
    (id : Nat)
    (bytes : Set Nat)
    (mem : Memory) : Prop where
  id : ch.id = id
  isPosted : ch.isPosted = true
  ccFirst : ch.ccFirst = none
  data : ∃ posted : RangeMap Bytes, posted.WellFormed ∧
    posted.covered = bytes ∧
    ch.data = createPatch mem posted

/- A post on an open channel publishes what was written. -/
theorem channelPost_spec
    {status : TaskStatus}
    (pprIndex : Nat)
    {id : Nat}
    (mem : Memory)
    {board : SwitchBoard}
    {localCh : LocalChannel}
    {writeMap : RangeMap Bytes}
    (hStatus : status.aside = false)
    (hId : id ≠ 0)
    (hServes : localCh.Serves id)
    (hLocal : localCh.data.WellFormed)
    (hWrite : writeMap.WellFormed)
    (hOpen : (board.channels (board.index id)).Open id) :
    ∃ ch localCh' writeMap',
      channelPost status pprIndex id mem board localCh
          writeMap =
        .ret (board.set (board.index id) ch, localCh',
          writeMap') ∧
      ch.Carries id
        (localCh.data.covered ∩ writeMap.covered) mem ∧
      writeMap'.WellFormed ∧
      writeMap'.covered =
        writeMap.covered \ localCh.data.covered := by
  rcases mapIntersect_spec hLocal hWrite with
    ⟨data, hData, hDataWell, hDataCovered⟩
  rcases mapSubtract_spec hWrite hDataWell with
    ⟨writeMap', hSub, hWell', hCovered'⟩
  have hConflict :
      ¬((board.channels (board.index id)).id ≠ 0 ∧
        (board.channels (board.index id)).id ≠ id) := by
    rcases hOpen.id with h | h <;> simp [h]
  refine ⟨{ board.channels (board.index id) with
        id := id
        sender := pprIndex
        data := createPatch mem data
        isPosted := true },
      channelLocalReset { localCh with data := data },
      writeMap', ?_, ?_, hWell', ?_⟩
  · unfold channelPost
    rw [hasLocalChannel_of_serves hId hServes]
    simp only [hStatus, Bool.false_eq_true, if_false,
      Outcome.ret_bind, Bool.not_true, hData,
      Outcome.ofOption, hConflict, hOpen.isPosted,
      hOpen.ccFirst, hSub]
  · exact ⟨rfl, rfl, hOpen.ccFirst,
      data, hDataWell, hDataCovered, rfl⟩
  · rw [hCovered', hDataCovered, Set.inter_comm]
    exact Set.sdiff_self_inter

------------------------------------------------------------
-- What a Wait Receives
------------------------------------------------------------

/- A range away from all stored ones comes back as it is. -/
theorem mapAddRangeFromTask_fresh
    {map map' : RangeMap Bytes}
    {base size : Nat}
    {obj : Option Bytes}
    {pprId : Nat}
    {range : MemRange Bytes}
    (hMap : map.Keeps 0)
    (hSize : 0 < size)
    (hFits : base + size < 2 ^ 64)
    (hAway : ∀ r ∈ map.ranges,
      ¬Meets (newNode base size none) r)
    (h : mapAddRangeFromTask map base size obj pprId =
      .done map' range) :
    range.base = base ∧ range.size = size ∧
      range.record =
        obj.map (fun src => dataClone src size) := by
  have hDisjoint : ∀ r ∈ map.ranges,
      EqualOrDisjoint r (newNode base size none) := by
    intro r hr
    right
    intro hMeets
    exact hAway r hr hMeets.symm
  rcases mapAddRangeFromTask_stores obj pprId hMap hSize
      hFits hDisjoint with
    ⟨map₁, range₁, hCall, hStores⟩
  rw [h, Added.done.injEq] at hCall
  rcases hCall with ⟨rfl, rfl⟩
  rcases hStores.winner with ⟨rfl, _⟩ | ⟨hOld, _⟩
  · exact ⟨rfl, rfl, rfl⟩
  · -- a stored range of this extent would meet the new one
    exfalso
    apply hAway range hOld
    rcases hStores.extent with ⟨hBase, hExtent⟩
    have hBase' : range.base = base := hBase
    have hExtent' : range.size = size := hExtent
    constructor
    · change base < range.base + range.size
      omega
    · change range.base < base + size
      omega

/- Posted ranges are received one after the other. -/
theorem foldlM_receiveRange
    (sender : Nat)
    (mem' : Memory)
    (ranges : List (MemRange Bytes))
    (received : RangeMap Bytes)
    (mem : Memory)
    (hApart : Apart 1 ranges)
    (hReceived : received.Keeps 0)
    (hBelow : ∀ b ∈ received.covered,
      ∀ r ∈ ranges, b < r.base) :
    ∃ received',
      (ranges.map (loadRange mem')).foldlM
          (receiveRange sender) (received, mem) =
        .ret (received',
          (ranges.map (loadRange mem')).foldl
            applyRangeBlock mem) := by
  induction ranges generalizing received mem with
  | nil => exact ⟨received, rfl⟩
  | cons r rest ih =>
      rw [Apart.cons_iff] at hApart
      rcases hApart with ⟨hR, hRest, hAfter⟩
      have hPos := hR.pos
      have hAway :
          ∀ s ∈ received.ranges,
            ¬Meets (newNode r.base r.size none) s := by
        intro s hs hGiven
        rcases hGiven with ⟨hGt, -⟩
        have hSPos := (hReceived.apart.valid s hs).pos
        have hLast :
            s.base + s.size - 1 ∈ received.covered := by
          apply addrs_subset_covered hs
          rw [MemRange.mem_addrs]
          omega
        have hLt := hBelow _ hLast r List.mem_cons_self
        change r.base < s.base + s.size at hGt
        omega
      have hDisjoint :
          ∀ s ∈ received.ranges,
            EqualOrDisjoint s
              (newNode r.base r.size none) := by
        intro s hs
        refine .inr ?_
        intro hMeets
        exact hAway s hs hMeets.symm
      rcases mapAddRangeFromTask_spec
          (some (loadBytes mem' r.base r.size)) sender
          hReceived hR.pos hR.fits hDisjoint with
        ⟨next, range, hDone, hNext, hCovered, -⟩
      rcases mapAddRangeFromTask_fresh hReceived hR.pos
          hR.fits hAway hDone with
        ⟨hBase, hSize, hRecord⟩
      have hReceive :
          receiveRange sender (received, mem)
              (loadRange mem' r) =
            .ret (next,
              applyRangeBlock mem (loadRange mem' r)) := by
        have hTake :
            dataClone (loadBytes mem' r.base r.size) r.size =
              loadBytes mem' r.base r.size := by
          apply List.take_of_length_le
          simp [loadBytes]
        unfold receiveRange
        change (match mapAddRangeFromTask received r.base
            r.size (some (loadBytes mem' r.base r.size))
            sender with
          | .done received approved => _
          | .refused _ => _
          | .fault => _) = _
        rw [hDone]
        simp only [hBase, hSize, hRecord, Option.map_some,
          hTake]
        rfl
      rcases ih next (applyRangeBlock mem (loadRange mem' r))
          hRest hNext (by
            intro b hb s hs
            rw [hCovered, Set.mem_union, Set.mem_Ico] at hb
            rcases hb with hb | hb
            · exact hBelow b hb s (List.mem_cons_of_mem r hs)
            · have hLe := hAfter s hs
              omega) with
        ⟨received', hRet⟩
      refine ⟨received', ?_⟩
      rw [List.map_cons, List.foldlM_cons, hReceive]
      exact hRet

/- The test answers whether two maps share no address. -/
theorem assertNoOverlap_spec
    {map1 map2 : RangeMap Bytes}
    (hMap1 : map1.WellFormed)
    (hMap2 : Apart 1 map2.ranges) :
    ∃ answer, assertNoOverlap map1 map2 = .ret answer ∧
      (answer = true ↔ Disjoint map1.covered map2.covered) := by
  rcases mapIntersect_parts (mapClone_spec hMap1).1 hMap2 with
    ⟨copy, hCopy, hWell, hParts⟩
  have hCovered :
      copy.covered = map1.covered ∩ map2.covered := by
    rw [← covered_mapClone hMap1]
    exact hParts.covered
  refine ⟨copy.size = 0, ?_, ?_⟩
  · unfold assertNoOverlap
    rw [hCopy]
    rfl
  · rw [decide_eq_true_iff, hWell.size_eq,
      List.length_eq_zero_iff,
      ← covered_eq_empty_iff hWell.apart, hCovered,
      ← Set.disjoint_iff_inter_eq_empty]

/- No map overlaps an empty one. -/
theorem disjoint_of_empty
    (bytes : Set Nat)
    {map : RangeMap Bytes}
    (hEmpty : map.ranges = []) :
    Disjoint bytes map.covered := by
  unfold RangeMap.covered
  rw [hEmpty, covered_nil]
  exact Set.disjoint_empty bytes

/-
  What a wait does with the channel it found: the post is
  received if no access to its bytes was recorded, and else
  left alone.
-/
theorem channelWait_of_source
    {id : Nat}
    {board : SwitchBoard}
    {src : Channel}
    {readMap writeMap : RangeMap Bytes}
    (received : RangeMap Bytes)
    (mem : Memory)
    (hPosted :
      (board.channels (board.index id)).isPosted = true)
    (hId : (board.channels (board.index id)).id = id)
    (hSource :
      waitSource board (board.channels (board.index id)) =
        .ret src)
    (hSrc : src.data.WellFormed)
    (hRead : Apart 1 readMap.ranges)
    (hWrite : Apart 1 writeMap.ranges) :
    (Disjoint src.data.covered readMap.covered ∧
        Disjoint src.data.covered writeMap.covered →
      channelWait .spec id board readMap writeMap received
          mem =
        some (src.data.ranges.foldlM
          (receiveRange src.sender) (received, mem))) ∧
    (¬(Disjoint src.data.covered readMap.covered ∧
        Disjoint src.data.covered writeMap.covered) →
      channelWait .spec id board readMap writeMap received
          mem =
        some (.ret (received, mem))) := by
  rcases assertNoOverlap_spec hSrc hRead with
    ⟨noRead, hNoRead, hReadIff⟩
  rcases assertNoOverlap_spec hSrc hWrite with
    ⟨noWrite, hNoWrite, hWriteIff⟩
  unfold channelWait
  rw [← hReadIff, ← hWriteIff]
  simp only [ne_eq, not_true_eq_false, if_false, hPosted,
    Bool.not_true, Bool.false_eq_true, hId, hSource,
    Outcome.ret_bind, hNoRead, hNoWrite]
  cases noRead with
  | true =>
      cases noWrite with
      | true => simp
      | false => simp
  | false => simp

/-
  A speculative task that has recorded nothing receives the
  posted bytes and keeps the rest of its memory.
-/
theorem channelWait_spec
    {id : Nat}
    {board : SwitchBoard}
    {bytes : Set Nat}
    {mem' : Memory}
    {readMap writeMap received : RangeMap Bytes}
    (mem : Memory)
    (hCarries : (board.channels (board.index id)).Carries id
      bytes mem')
    (hRead : readMap.ranges = [])
    (hWrite : writeMap.ranges = [])
    (hReceived : received.Keeps 0)
    (hNone : received.ranges = []) :
    ∃ received' next,
      channelWait .spec id board readMap writeMap received
          mem =
        some (.ret (received', next)) ∧
      (∀ a ∈ bytes, next a = mem' a) ∧
      ∀ a, a ∉ bytes → next a = mem a := by
  rcases hCarries.data with ⟨posted, hWell, hBytes, hData⟩
  have hChWell := createPatch_wellFormed mem' hWell
  rcases foldlM_receiveRange
      (board.channels (board.index id)).sender mem'
      posted.ranges received mem hWell.apart hReceived
      (by simp [RangeMap.covered, hNone]) with
    ⟨received', hFold⟩
  refine ⟨received',
    (posted.ranges.map (loadRange mem')).foldl
      applyRangeBlock mem, ?_, ?_, ?_⟩
  · have hSource :
        waitSource board (board.channels (board.index id)) =
          .ret (board.channels (board.index id)) := by
      unfold waitSource
      rw [hCarries.ccFirst]
    rw [(channelWait_of_source received mem
        hCarries.isPosted hCarries.id hSource
        (by rw [hData]; exact hChWell)
        (by rw [hRead]; exact Apart.nil)
        (by rw [hWrite]; exact Apart.nil)).1
        ⟨disjoint_of_empty _ hRead,
          disjoint_of_empty _ hWrite⟩,
      hData, ranges_createPatch mem' hWell, hFold]
  · intro a ha
    rw [← hBytes] at ha
    exact (foldl_applyRangeBlock mem' posted.ranges mem
      a).1 ha
  · intro a ha
    rw [← hBytes] at ha
    exact (foldl_applyRangeBlock mem' posted.ranges mem
      a).2 ha

/- A wait looks at channels of the board. -/
theorem waitSource_mem
    {board : SwitchBoard}
    {i : Nat}
    {src : Channel}
    (h : waitSource board (board.channels i) = .ret src) :
    ∃ j, src = board.channels j := by
  have hSearch :
      ∀ fuel i, firstWithData board fuel (board.channels i) =
        some src → ∃ j, src = board.channels j := by
    intro fuel
    induction fuel with
    | zero =>
        intro i hFound
        cases hFound
    | succ fuel ih =>
        intro i hFound
        unfold firstWithData at hFound
        split at hFound
        · split at hFound
          · rw [Option.some.injEq] at hFound
            exact ⟨i, hFound.symm⟩
          · exact ih _ hFound
        · rw [Option.some.injEq] at hFound
          exact ⟨i, hFound.symm⟩
  unfold waitSource at h
  split at h
  · rw [Outcome.ret.injEq] at h
    exact ⟨i, h.symm⟩
  · rename_i first hFirst
    rw [Outcome.bind_eq_ret_iff] at h
    rcases h with ⟨found, hFound, hData⟩
    rw [Outcome.ofOption_eq_ret_iff] at hFound
    split at hData
    · cases hData
    · rw [Outcome.ret.injEq] at hData
      subst hData
      exact hSearch _ first hFound

------------------------------------------------------------
-- Access Before Wait
------------------------------------------------------------

/- The task recorded an access to a byte of the data. -/
def Accessed
    (data readMap writeMap : RangeMap Bytes) : Prop :=
  ∃ a ∈ data.covered,
    a ∈ readMap.covered ∨ a ∈ writeMap.covered

theorem not_accessed_iff
    {data readMap writeMap : RangeMap Bytes} :
    ¬Accessed data readMap writeMap ↔
      Disjoint data.covered readMap.covered ∧
        Disjoint data.covered writeMap.covered := by
  unfold Accessed
  rw [Set.disjoint_left, Set.disjoint_left]
  push Not
  constructor
  · intro h
    exact ⟨fun a ha => (h a ha).1, fun a ha => (h a ha).2⟩
  · intro hCase
    rcases hCase with ⟨hRead, hWrite⟩
    intro a ha
    exact ⟨hRead ha, hWrite ha⟩

/- A wait that returns received a post or did nothing. -/
theorem channelWait_returns
    {status : TaskStatus}
    {id : Nat}
    {board : SwitchBoard}
    {readMap writeMap received received' : RangeMap Bytes}
    {mem mem' : Memory}
    (hData : ∀ i, (board.channels i).data.WellFormed)
    (hRead : readMap.WellFormed)
    (hWrite : writeMap.WellFormed)
    (h : channelWait status id board readMap writeMap received
      mem = some (.ret (received', mem'))) :
    (received' = received ∧ mem' = mem) ∨
    ∃ src,
      waitSource board (board.channels (board.index id)) =
        .ret src ∧
      ¬Accessed src.data readMap writeMap ∧
      src.data.ranges.foldlM (receiveRange src.sender)
        (received, mem) = .ret (received', mem') := by
  have hCall := h
  unfold channelWait at h
  split at h
  · simp only [Option.some.injEq, Outcome.ret.injEq,
      Prod.mk.injEq] at h
    exact .inl ⟨h.1.symm, h.2.symm⟩
  · rename_i hSpec
    rw [ne_eq, not_not] at hSpec
    subst hSpec
    dsimp only at h
    split at h
    · cases h
    · rename_i hPosted
      rw [Bool.not_eq_true', Bool.not_eq_false] at hPosted
      split at h
      · cases h
      · rename_i hId
        rw [ne_eq, not_not] at hId
        rw [Option.some.injEq, Outcome.bind_eq_ret_iff] at h
        rcases h with ⟨src, hSource, _⟩
        rcases waitSource_mem hSource with ⟨j, hSrc⟩
        rcases channelWait_of_source received mem hPosted hId
            hSource (by rw [hSrc]; exact hData j)
            hRead.apart hWrite.apart with
          ⟨hReceives, hKeeps⟩
        rw [← not_accessed_iff] at hReceives hKeeps
        by_cases hAccessed : Accessed src.data readMap writeMap
        · left
          rw [hKeeps (not_not.mpr hAccessed)] at hCall
          simp only [Option.some.injEq, Outcome.ret.injEq,
            Prod.mk.injEq] at hCall
          exact ⟨hCall.1.symm, hCall.2.symm⟩
        · right
          rw [hReceives hAccessed, Option.some.injEq] at hCall
          exact ⟨src, hSource, hAccessed, hCall⟩

/-
  A clone has the ranges of its source, and the overlap test
  finds a common address if there is one. So a wait on a
  posted channel receives the post if the task recorded no
  access to a byte of it, and no other wait that returns
  changes the received map or the memory.
-/
theorem channelWait_exact
    {m1 m2 readMap writeMap : RangeMap Bytes}
    {board : SwitchBoard}
    (hM1 : m1.WellFormed)
    (hM2 : m2.WellFormed)
    (hData : ∀ i, (board.channels i).data.WellFormed)
    (hRead : readMap.WellFormed)
    (hWrite : writeMap.WellFormed) :
    (mapClone m1).ranges.map
        (fun r => (r.base, r.size, r.record)) =
      m1.ranges.map (fun r => (r.base, r.size, r.record)) ∧
    (∃ answer, assertNoOverlap m1 m2 = .ret answer ∧
      (answer = true ↔
        ¬∃ a, a ∈ m1.covered ∧ a ∈ m2.covered)) ∧
    (∀ id src received mem,
      (board.channels (board.index id)).isPosted = true →
      (board.channels (board.index id)).id = id →
      waitSource board (board.channels (board.index id)) =
        .ret src →
      (Accessed src.data readMap writeMap →
        channelWait .spec id board readMap writeMap received
          mem = some (.ret (received, mem))) ∧
      (¬Accessed src.data readMap writeMap →
        channelWait .spec id board readMap writeMap received
          mem =
          some (src.data.ranges.foldlM
            (receiveRange src.sender) (received, mem)))) ∧
    (∀ status id received mem received' mem',
      channelWait status id board readMap writeMap received
          mem = some (.ret (received', mem')) →
      (received' = received ∧ mem' = mem) ∨
      ∃ src,
        waitSource board (board.channels (board.index id)) =
          .ret src ∧
        ¬Accessed src.data readMap writeMap ∧
        src.data.ranges.foldlM (receiveRange src.sender)
          (received, mem) = .ret (received', mem')) := by
  refine ⟨?_, ?_, ?_, ?_⟩
  · rw [(mapClone_spec hM1).2, List.map_map]
    rfl
  · rcases assertNoOverlap_spec hM1 hM2.apart with
      ⟨answer, hRet, hIff⟩
    refine ⟨answer, hRet, ?_⟩
    rw [hIff, Set.disjoint_left]
    push Not
    rfl
  · intro id src received mem hPosted hId hSource
    rcases waitSource_mem hSource with ⟨j, hSrc⟩
    rcases channelWait_of_source received mem hPosted hId
        hSource (by rw [hSrc]; exact hData j)
        hRead.apart hWrite.apart with
      ⟨hReceives, hKeeps⟩
    rw [← not_accessed_iff] at hReceives hKeeps
    exact ⟨fun h => hKeeps (not_not.mpr h), hReceives⟩
  · intro status id received mem received' mem' hCall
    exact channelWait_returns hData hRead hWrite hCall

/- The change set of two ranges, posted on channel 5. -/
def postedTwoChanges : SwitchBoard :=
  (postwaitInit 0 1).set 5
    { blankChannel with
      id := 5
      data := createPatch (fun _ => 7) twoChanges
      isPosted := true }

theorem wellFormed_postedTwoChanges
    (i : Nat) :
    (postedTwoChanges.channels i).data.WellFormed := by
  have hChanges : twoChanges.WellFormed := by decide
  unfold postedTwoChanges SwitchBoard.set
  dsimp only
  rcases eq_or_ne i 5 with rfl | hNe
  · rw [Function.update_self]
    exact createPatch_wellFormed (fun _ => 7) hChanges
  · rw [Function.update_of_ne hNe]
    exact keeps_initEmptyMap 1

/- A task that wrote one of the bytes receives none. -/
theorem channelWait_exact_twoChanges :
    channelWait .spec 5 postedTwoChanges initEmptyMap
        twoChanges initEmptyMap (fun _ => 0) =
      some (.ret (initEmptyMap, fun _ => 0)) := by
  have hChanges : twoChanges.WellFormed := by decide
  rcases channelWait_exact hChanges hChanges
      wellFormed_postedTwoChanges (keeps_initEmptyMap 1)
      hChanges with
    ⟨_, _, hWait, _⟩
  apply (hWait 5 _ initEmptyMap _ rfl rfl rfl).1
  exact ⟨13, by decide, .inr (by decide)⟩

end Cbop
