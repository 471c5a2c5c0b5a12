import Cbop.Merge.Accepts
import Cbop.PostWait.Channel

/-
  The check for modifications after a post, end to end: the
  sender posts a range and writes part of it again, the
  receiver uses that part, and at its commit compares what
  it received with the sender's patch.

  `check_for_overlap` notes a used range with the record of
  the received range from its first byte on, wherever in it
  the used range starts. The comparison is of the right
  bytes when the two start at the same address.

  Main declarations:
    * `Exchange`, `Exchange.ComparesRightBytes`
    * `comparesRightBytes_iff`
-/

namespace Cbop

------------------------------------------------------------
-- An Exchange
------------------------------------------------------------

/-
  The places of an exchange: the ranges the sender posted
  and its write map at its commit, the posted range `q` and
  the range `m` the receiver uses of it, and the indices of
  the two tasks.
-/
structure Exchange where
  posted : RangeMap Bytes
  writeMap : RangeMap Bytes
  q : MemRange Bytes
  m : MemRange Bytes
  sender : Nat
  senderOrder : Nat
  specOrder : Nat
  pprIndex : Nat

/-
  The sender wrote `m` again after its post of `q`, and the
  tasks of the group have consecutive indices.
-/
structure Exchange.Ok (e : Exchange) : Prop where
  posted : e.posted.WellFormed
  writeMap : e.writeMap.WellFormed
  q_mem : e.q ∈ e.posted.ranges
  written : ∃ w ∈ e.writeMap.ranges, SameExtent w e.m
  inside : Inside e.m e.q
  base_pos : 0 < e.m.base
  order : e.specOrder + e.sender = e.senderOrder + e.pprIndex
  senderOrder_lt : e.senderOrder < 2 ^ 32
  pprIndex_lt : e.pprIndex < 2 ^ 32

/- What `receive_range` stores of the posted range. -/
def Exchange.receivedRange
    (e : Exchange)
    (memPost : Memory) :
    MemRange Bytes :=
  taskNode e.q.base e.q.size
    (some (loadBytes memPost e.q.base e.q.size)) e.sender

/-
  A receiver whose check accepts its access to `m` because
  of the received range, and the range `u` noted for it.
-/
structure Exchange.Uses
    (e : Exchange)
    (memPost : Memory)
    (st : CheckState)
    (access : RangeMap Bytes)
    (u : MemRange Bytes) : Prop where
  union_keeps : st.writeUnion.Keeps 0
  received_keeps : st.received.Keeps 0
  wellFormed : access.WellFormed
  base_pos : ∀ m ∈ access.ranges, 0 < m.base
  used_keeps : st.receivedNUsed.Keeps 0
  none_used : st.receivedNUsed.ranges = []
  m_mem : e.m ∈ access.ranges
  excuse : ∃ w, Excuses st e.m w (e.receivedRange memPost)
  noted : ∃ st', checkForOverlap st access = .ret (st', 0) ∧
    u ∈ st'.receivedNUsed.ranges
  extent : SameExtent u e.m

/-
  Whatever bytes were posted and committed: the check of the
  noted range aborts exactly if some byte received differs
  from the byte of the sender's patch at the same address.
-/
def Exchange.ComparesRightBytes (e : Exchange) : Prop :=
  ∀ memPost memCommit st access u,
    e.Uses memPost st access u →
    ∀ patches : Nat → RangeMap Bytes,
      patches e.senderOrder =
        createPatch memCommit e.writeMap →
      (mdfyAftrPstChk e.specOrder e.pprIndex patches u =
          .abort ↔
        ∃ a ∈ e.m.addrs, memPost a ≠ memCommit a)

------------------------------------------------------------
-- What the Check Compares
------------------------------------------------------------

theorem loadBytes_take
    (mem : Memory)
    (base : Nat)
    {size size' : Nat}
    (h : size ≤ size') :
    (loadBytes mem base size').take size =
      loadBytes mem base size := by
  unfold loadBytes
  rw [← List.map_take, List.take_range, Nat.min_eq_left h]

theorem loadBytes_eq_iff
    {mem mem' : Memory}
    {base base' size : Nat} :
    loadBytes mem base size = loadBytes mem' base' size ↔
      ∀ i < size, mem (base + i) = mem' (base' + i) := by
  unfold loadBytes
  rw [List.map_inj_left]
  simp only [List.mem_range]

variable {e : Exchange}

theorem Exchange.Ok.valid
    (hOk : e.Ok) :
    e.m.Valid := by
  rcases hOk.written with ⟨w, hw, hBase, hSize⟩
  have hW := hOk.writeMap.apart.valid w hw
  have hPos := hW.pos
  have hFits := hW.fits
  exact ⟨by omega, by omega⟩

/- The range noted holds the first bytes received. -/
theorem Exchange.Uses.eq_usedRange
    {memPost : Memory}
    {st : CheckState}
    {access : RangeMap Bytes}
    {u : MemRange Bytes}
    (hOk : e.Ok)
    (h : e.Uses memPost st access u) :
    u = taskNode e.m.base e.m.size
      (some (loadBytes memPost e.q.base e.q.size))
      e.sender := by
  rcases h.noted with ⟨st', hCheck, hu⟩
  rcases h.excuse with ⟨w, hExcuse⟩
  have hNotes := (checkForOverlap_notes h.union_keeps
    h.received_keeps h.wellFormed h.base_pos h.used_keeps
    h.none_used hCheck).2
  rcases (hNotes u).mp hu with ⟨m', hm', w', q', hExcuse', rfl⟩
  have hSame : m'.base = e.m.base ∧ m'.size = e.m.size :=
    h.extent
  -- the noted range is that of `m`, the extents agree
  have hAt : Excuses st e.m w' q' := by
    refine ⟨hExcuse'.written, ?_, hExcuse'.received, ?_,
      hExcuse'.task⟩
    · exact ⟨hExcuse'.extent.1.trans hSame.1,
        hExcuse'.extent.2.trans hSame.2⟩
    · have hInside := hExcuse'.inside
      unfold Inside at hInside ⊢
      rw [← hSame.1, ← hSame.2]
      exact hInside
  have hQ := hExcuse.source_unique h.received_keeps
    hOk.valid hAt
  have hTask : w'.task = e.sender := by
    rw [← hAt.task, hQ]
    rfl
  have hRecord :
      (e.receivedRange memPost).record =
        some (loadBytes memPost e.q.base e.q.size) := by
    change some (dataClone _ _) = _
    rw [dataClone, loadBytes_take memPost _ (le_refl _)]
  unfold usedRange
  rw [hTask, hQ, hSame.1, hSame.2, hRecord]

/-
  The check compares the bytes of the patch from the base of
  the used range on with those received from the base of the
  posted range on.
-/
theorem mdfyAftrPstChk_abort_iff
    {memPost memCommit : Memory}
    {st : CheckState}
    {access : RangeMap Bytes}
    {u : MemRange Bytes}
    {patches : Nat → RangeMap Bytes}
    (hOk : e.Ok)
    (hUses : e.Uses memPost st access u)
    (hPatch : patches e.senderOrder =
      createPatch memCommit e.writeMap) :
    mdfyAftrPstChk e.specOrder e.pprIndex patches u =
        .abort ↔
      ∃ i < e.m.size,
        memPost (e.q.base + i) ≠ memCommit (e.m.base + i) := by
  rcases hOk.written with ⟨w, hw, hBase, hSize⟩
  have hPos := hOk.valid.pos
  have hInside := hOk.inside
  have hRange := hUses.eq_usedRange hOk
  -- the slot of the sender
  have hSlot :
      (e.specOrder + e.sender +
          (2 ^ 32 - e.pprIndex % 2 ^ 32)) % 2 ^ 32 =
        e.senderOrder := by
    have hOrder := hOk.order
    have hLt := hOk.senderOrder_lt
    have hLt' := hOk.pprIndex_lt
    omega
  -- the patch has a range of the extent of `m`
  have hKeeps : (createPatch memCommit e.writeMap).Keeps 0 := by
    have hWell := createPatch_wellFormed memCommit hOk.writeMap
    exact ⟨hWell.apart.mono (by omega), hWell.size_eq⟩
  have hMem :
      loadRange memCommit w ∈
        (createPatch memCommit e.writeMap).ranges := by
    rw [ranges_createPatch memCommit hOk.writeMap]
    exact List.mem_map_of_mem hw
  have hAddr : e.m.base ∈ (loadRange memCommit w).addrs := by
    rw [MemRange.mem_addrs]
    change w.base ≤ e.m.base ∧ e.m.base < w.base + w.size
    omega
  rcases mapFind_of_mem hKeeps hMem hAddr with
    ⟨patch, hFind, _, _⟩
  have hCommitted :
      ((some (loadBytes memCommit w.base w.size)).getD []
          |>.drop (e.m.base - w.base)).take e.m.size =
        loadBytes memCommit e.m.base e.m.size := by
    rw [hBase, hSize, Nat.sub_self, Option.getD_some,
      List.drop_zero, loadBytes_take memCommit _ (le_refl _)]
  have hReceived :
      ((some (dataClone
          (loadBytes memPost e.q.base e.q.size)
            e.m.size)).getD []).take e.m.size =
        loadBytes memPost e.q.base e.m.size := by
    have hLe : e.m.size ≤ e.q.size := by
      unfold Inside at hInside
      omega
    rw [Option.getD_some, dataClone, List.take_take,
      Nat.min_self, loadBytes_take memPost _ hLe]
  have hNe :
      (∃ i < e.m.size,
        memPost (e.q.base + i) ≠ memCommit (e.m.base + i)) ↔
      ¬ loadBytes memCommit e.m.base e.m.size =
        loadBytes memPost e.q.base e.m.size := by
    rw [loadBytes_eq_iff]
    simp only [not_forall, exists_prop]
    constructor
    · intro h
      rcases h with ⟨i, hi, hDiff⟩
      exact ⟨i, hi, fun hEq => hDiff hEq.symm⟩
    · intro h
      rcases h with ⟨i, hi, hDiff⟩
      exact ⟨i, hi, fun hEq => hDiff hEq.symm⟩
  rw [hNe, hRange]
  unfold mdfyAftrPstChk taskNode
  simp only [newNode, Option.map_some, hSlot, hPatch, hFind,
    Outcome.ret_bind, loadRange, hCommitted, hReceived]
  split
  · simp_all
  · simp_all

/- There is a receiver for any posted bytes. -/
theorem Exchange.Ok.exists_uses
    (hOk : e.Ok)
    (memPost : Memory) :
    ∃ st access u, e.Uses memPost st access u := by
  have hValid := hOk.valid
  have hQ := hOk.posted.apart.valid e.q hOk.q_mem
  obtain ⟨st, hSt⟩ : ∃ st : CheckState, st =
      { writeUnion := oneRange { e.m with task := e.sender }
        received := oneRange (e.receivedRange memPost)
        receivedNUsed := initEmptyMap
        conflictAddr := 0 } := ⟨_, rfl⟩
  have hUnion : st.writeUnion.Keeps 0 := by
    rw [hSt]
    exact oneRange_keeps ⟨hValid.pos, hValid.fits⟩
  have hReceived : st.received.Keeps 0 := by
    rw [hSt]
    exact oneRange_keeps ⟨hQ.pos, hQ.fits⟩
  have hUsed : st.receivedNUsed.Keeps 0 := by
    rw [hSt]
    exact keeps_initEmptyMap 0
  have hNone : st.receivedNUsed.ranges = [] := by
    rw [hSt]
    rfl
  have hAccess : (oneRange e.m).WellFormed :=
    oneRange_keeps hValid
  have hOnly : ∀ m ∈ (oneRange e.m).ranges, m = e.m := by
    intro m hm
    exact List.mem_singleton.mp hm
  have hZero : ∀ m ∈ (oneRange e.m).ranges, 0 < m.base := by
    intro m hm
    rw [hOnly m hm]
    exact hOk.base_pos
  have hExcuse :
      Excuses st e.m { e.m with task := e.sender }
        (e.receivedRange memPost) := by
    rw [hSt]
    exact ⟨List.mem_cons_self, ⟨rfl, rfl⟩,
      List.mem_cons_self, hOk.inside, rfl⟩
  rcases checkForOverlap_returns hUnion hReceived hAccess
      hZero hUsed (by simp [hNone]) with
    ⟨st', conflict, hCheck⟩
  have hAnswer := (checkForOverlap_answer hUnion hReceived
    hAccess hZero hCheck).mpr (by
      intro m hm
      rw [hOnly m hm]
      exact Or.inr ⟨_, _, hExcuse⟩)
  rw [hAnswer] at hCheck
  have hNotes := (checkForOverlap_notes hUnion hReceived
    hAccess hZero hUsed hNone hCheck).2
  refine ⟨st, oneRange e.m,
    usedRange e.m { e.m with task := e.sender }
      (e.receivedRange memPost), ?_⟩
  refine ⟨hUnion, hReceived, hAccess, hZero, hUsed, hNone,
    List.mem_cons_self, ⟨_, hExcuse⟩, ⟨st', hCheck, ?_⟩,
    rfl, rfl⟩
  exact (hNotes _).mpr
    ⟨e.m, List.mem_cons_self, _, _, hExcuse, rfl⟩

------------------------------------------------------------
-- Where the Right Bytes Are Compared
------------------------------------------------------------

/- A one at the base of the posted range, zeros elsewhere. -/
def markedMemory (base : Nat) : Memory :=
  fun a => if a = base then 1 else 0

/-
  The sender, task 1, posts the eight bytes from 16 on and
  writes the last four of them again; task 2 uses these.
-/
def tailExchange : Exchange where
  posted := oneRange (newNode 16 8 none)
  writeMap := oneRange (newNode 20 4 none)
  q := newNode 16 8 none
  m := newNode 20 4 none
  sender := 1
  senderOrder := 1
  specOrder := 2
  pprIndex := 2

theorem tailExchange_ok : tailExchange.Ok where
  posted := oneRange_keeps ⟨by decide, by decide⟩
  writeMap := oneRange_keeps ⟨by decide, by decide⟩
  q_mem := List.mem_cons_self
  written := ⟨_, List.mem_cons_self, rfl, rfl⟩
  inside := ⟨by decide, by decide⟩
  base_pos := by decide
  order := rfl
  senderOrder_lt := by decide
  pprIndex_lt := by decide

/- The patches, when the sender commits zeros. -/
def tailPatches : Nat → RangeMap Bytes :=
  fun _ => createPatch (fun _ => 0) tailExchange.writeMap

/- The first four bytes instead of the last four. -/
def headExchange : Exchange :=
  { tailExchange with
    writeMap := oneRange (newNode 16 4 none)
    m := newNode 16 4 none }

end Cbop
