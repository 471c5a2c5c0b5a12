import Cbop.PostWait.Channel
import Cbop.RangeTree.Contains
import Mathlib.Data.List.Nodup

/-
  A task that receives the posts of several senders.

  The received map keeps, of every extent, the range of the
  latest sender, and memory holds what the map holds. Both
  facts are about the set of ranges received so far, so the
  order of the receives does not show in the result.

  Main declarations:
    * `Holds`, `receiveRange_holds`
    * `Post`, `receiveAll`
    * `receiveAll_order_independent`
-/

namespace Cbop

------------------------------------------------------------
-- What the Received Ranges Leave
------------------------------------------------------------

/- The byte a range's data holds for an address. -/
def MemRange.byteAt (r : MemRange Bytes) (a : Nat) : UInt8 :=
  (r.record.getD []).getD (a - r.base) 0

/-
  The received map and the memory after the ranges of a list
  have been received, from the memory `start`.
-/
structure Holds
    (start : Memory)
    (items : List (MemRange Bytes))
    (st : RangeMap Bytes × Memory) : Prop where
  keeps : st.1.Keeps 0
  mem_items : ∀ r ∈ st.1.ranges, r ∈ items
  latest : ∀ s ∈ items, ∃ r ∈ st.1.ranges,
    SameExtent r s ∧ s.task ≤ r.task
  bytes : ∀ r ∈ st.1.ranges, ∀ a ∈ r.addrs,
    st.2 a = r.byteAt a
  others : ∀ a, a ∉ covered items → st.2 a = start a

theorem SameExtent.symm
    {r s : MemRange Bytes}
    (h : SameExtent r s) :
    SameExtent s r :=
  ⟨h.1.symm, h.2.symm⟩

theorem SameExtent.trans
    {r s t : MemRange Bytes}
    (h : SameExtent r s)
    (h' : SameExtent s t) :
    SameExtent r t :=
  ⟨h.1.trans h'.1, h.2.trans h'.2⟩

/- Stored ranges of one extent are one range. -/
theorem eq_of_sameExtent
    {map : RangeMap Bytes}
    {r s : MemRange Bytes}
    (hMap : map.Keeps 0)
    (hr : r ∈ map.ranges)
    (hs : s ∈ map.ranges)
    (h : SameExtent r s) :
    r = s := by
  have hPos := (hMap.apart.valid r hr).pos
  have hBase : r.base ∈ r.addrs := by
    rw [MemRange.mem_addrs]
    omega
  apply eq_of_mem_addrs hMap hr hs hBase
  rw [← h.addrs_eq]
  exact hBase

theorem storeBytes_eq
    (mem : Memory)
    (r : MemRange Bytes)
    (a : Nat) :
    (a ∈ r.addrs →
      storeBytes mem r.base r.size (r.record.getD []) a =
        r.byteAt a) ∧
    (a ∉ r.addrs →
      storeBytes mem r.base r.size (r.record.getD []) a =
        mem a) := by
  rw [MemRange.mem_addrs]
  exact ⟨fun h => if_pos h, fun h => if_neg h⟩

/- One more range, from a sender not yet heard of it. -/
theorem receiveRange_holds
    {start : Memory}
    {items : List (MemRange Bytes)}
    {st : RangeMap Bytes × Memory}
    {range : MemRange Bytes}
    (sender : Nat)
    (h : Holds start items st)
    (hValid : range.Valid)
    (hFree : ∀ s ∈ items, EqualOrDisjoint s range) :
    ∃ st', receiveRange sender st range = .ret st' ∧
      Holds start
        (items ++ [taskNode range.base range.size range.record
          sender]) st' := by
  have hStored : ∀ r ∈ st.1.ranges,
      EqualOrDisjoint r (newNode range.base range.size none) :=
    fun r hr => hFree r (h.mem_items r hr)
  rcases mapAddRangeFromTask_stores range.record sender
      h.keeps hValid.pos hValid.fits hStored with
    ⟨received, approved, hCall, hStores⟩
  obtain ⟨n, hN⟩ : ∃ n, n = taskNode range.base range.size
      range.record sender := ⟨_, rfl⟩
  rw [← hN] at hStores ⊢
  have hNAddrs : approved.addrs = n.addrs :=
    hStores.extent.addrs_eq
  have hApproved : approved ∈ received.ranges :=
    (hStores.mem_iff _).mpr (Or.inl rfl)
  refine ⟨(received, storeBytes st.2 approved.base
    approved.size (approved.record.getD [])), ?_,
    hStores.keeps, ?_, ?_, ?_, ?_⟩
  · unfold receiveRange
    rw [hCall]
  · intro r hr
    rw [List.mem_append, List.mem_singleton]
    rcases (hStores.mem_iff r).mp hr with rfl | ⟨hOld, _⟩
    · rcases hStores.winner with ⟨hNew, _⟩ | ⟨hOld, _⟩
      · exact Or.inr hNew
      · exact Or.inl (h.mem_items r hOld)
    · exact Or.inl (h.mem_items r hOld)
  · intro s hs
    rw [List.mem_append, List.mem_singleton] at hs
    rcases hs with hs | rfl
    · rcases h.latest s hs with ⟨r, hr, hSame, hLe⟩
      by_cases hN' : SameExtent r n
      · -- the new range competes with the one held
        refine ⟨approved, hApproved,
          (hStores.extent.trans hN'.symm).trans hSame, ?_⟩
        rcases hStores.winner with ⟨hNew, hMax⟩ | ⟨hOld, _⟩
        · rw [hNew]
          exact hLe.trans (hMax r hr hN')
        · rw [eq_of_sameExtent h.keeps hOld hr
            (hStores.extent.trans hN'.symm)]
          exact hLe
      · exact ⟨r, (hStores.mem_iff r).mpr
          (Or.inr ⟨hr, hN'⟩), hSame, hLe⟩
    · refine ⟨approved, hApproved, hStores.extent, ?_⟩
      rcases hStores.winner with ⟨hNew, _⟩ | ⟨_, hLt⟩
      · rw [hNew]
      · exact Nat.le_of_lt hLt
  · intro r hr a ha
    rcases (hStores.mem_iff r).mp hr with rfl | ⟨hOld, hNot⟩
    · exact (storeBytes_eq st.2 r a).1 ha
    · have hOff : a ∉ approved.addrs := by
        intro hIn
        apply hNot
        rw [eq_of_mem_addrs hStores.keeps hr hApproved ha hIn]
        exact hStores.extent
      have hKept := (storeBytes_eq st.2 approved a).2 hOff
      exact hKept.trans (h.bytes r hOld a ha)
  · intro a ha
    rw [covered_append, covered_cons, covered_nil,
      Set.union_empty, Set.mem_union, not_or,
      ← hNAddrs] at ha
    have hKept := (storeBytes_eq st.2 approved a).2 ha.2
    exact hKept.trans (h.others a ha.1)

/-
  The result is a function of the set of items, where no two
  items have an extent and a task in common.
-/
theorem Holds.mem_ranges_iff
    {start : Memory}
    {items : List (MemRange Bytes)}
    {st : RangeMap Bytes × Memory}
    (h : Holds start items st)
    (hOne : ∀ r ∈ items, ∀ s ∈ items,
      SameExtent r s → r.task = s.task → r = s)
    (r : MemRange Bytes) :
    r ∈ st.1.ranges ↔
      r ∈ items ∧
        ∀ s ∈ items, SameExtent s r → s.task ≤ r.task := by
  constructor
  · intro hr
    refine ⟨h.mem_items r hr, ?_⟩
    intro s hs hSame
    rcases h.latest s hs with ⟨r', hr', hSame', hLe⟩
    rw [eq_of_sameExtent h.keeps hr' hr
      (hSame'.trans hSame)] at hLe
    exact hLe
  · intro hCase
    rcases hCase with ⟨hr, hMax⟩
    rcases h.latest r hr with ⟨r', hr', hSame, hLe⟩
    have hItem := h.mem_items r' hr'
    have hLe' := hMax r' hItem hSame
    rw [← hOne r' hItem r hr hSame
      (Nat.le_antisymm hLe' hLe)]
    exact hr'

theorem Holds.covered_eq
    {start : Memory}
    {items : List (MemRange Bytes)}
    {st : RangeMap Bytes × Memory}
    (h : Holds start items st) :
    st.1.covered = covered items := by
  ext a
  constructor
  · intro hCase
    rcases hCase with ⟨r, hr, ha⟩
    exact ⟨r, h.mem_items r hr, ha⟩
  · intro hCase
    rcases hCase with ⟨s, hs, ha⟩
    rcases h.latest s hs with ⟨r, hr, hSame, _⟩
    rw [← hSame.addrs_eq] at ha
    exact ⟨r, hr, ha⟩

/- Ordered lists with the same ranges are equal. -/
theorem ranges_eq_of_mem_iff
    {map map' : RangeMap Bytes}
    (hMap : map.Keeps 0)
    (hMap' : map'.Keeps 0)
    (h : ∀ r, r ∈ map.ranges ↔ r ∈ map'.ranges) :
    map.ranges = map'.ranges := by
  have hNodup : ∀ {m : RangeMap Bytes}, m.Keeps 0 →
      m.ranges.Nodup := by
    intro m hm
    apply hm.apart.ordered.imp
    intro r s hLt hEq
    subst hEq
    omega
  have hPerm : map.ranges.Perm map'.ranges :=
    (List.perm_ext_iff_of_nodup (hNodup hMap)
      (hNodup hMap')).mpr h
  apply hPerm.eq_of_pairwise _ hMap.apart.ordered
    hMap'.apart.ordered
  intro r s _ _ hLt hGt
  omega

/- Two results for the same items are the same. -/
theorem Holds.unique
    {start : Memory}
    {items items' : List (MemRange Bytes)}
    {st st' : RangeMap Bytes × Memory}
    (h : Holds start items st)
    (h' : Holds start items' st')
    (hItems : ∀ r, r ∈ items ↔ r ∈ items')
    (hOne : ∀ r ∈ items, ∀ s ∈ items,
      SameExtent r s → r.task = s.task → r = s) :
    st.1.ranges = st'.1.ranges ∧ st.2 = st'.2 := by
  have hOne' : ∀ r ∈ items', ∀ s ∈ items',
      SameExtent r s → r.task = s.task → r = s := by
    intro r hr s hs
    exact hOne r ((hItems r).mpr hr) s ((hItems s).mpr hs)
  have hRanges : st.1.ranges = st'.1.ranges := by
    apply ranges_eq_of_mem_iff h.keeps h'.keeps
    intro r
    rw [h.mem_ranges_iff hOne, h'.mem_ranges_iff hOne']
    simp only [hItems]
  refine ⟨hRanges, ?_⟩
  funext a
  by_cases ha : a ∈ st.1.covered
  · rcases ha with ⟨r, hr, haR⟩
    rw [h.bytes r hr a haR]
    rw [hRanges] at hr
    rw [h'.bytes r hr a haR]
  · have ha' : a ∉ st'.1.covered := by
      unfold RangeMap.covered at ha ⊢
      rw [← hRanges]
      exact ha
    rw [h.covered_eq] at ha
    rw [h'.covered_eq] at ha'
    rw [h.others a ha, h'.others a ha']

------------------------------------------------------------
-- Receiving Posts
------------------------------------------------------------

/-
  A post as its receiver meets it: the board at the time of
  the wait, the channel waited for, the sender, and the
  ranges and bytes it posted.
-/
structure Post where
  board : SwitchBoard
  id : Nat
  sender : Nat
  posted : RangeMap Bytes
  mem : Memory

/-
  The channel is posted, and the wait receives the sender's
  patch from it or from its chain.
-/
structure Post.Visible (p : Post) : Prop where
  wellFormed : p.posted.WellFormed
  isPosted :
    (p.board.channels (p.board.index p.id)).isPosted = true
  id_eq : (p.board.channels (p.board.index p.id)).id = p.id
  source : ∃ src,
    waitSource p.board
        (p.board.channels (p.board.index p.id)) = .ret src ∧
      src.data = createPatch p.mem p.posted ∧
      src.sender = p.sender

/- A range with the bytes and the task of a post. -/
def Post.item (p : Post) (q : MemRange Bytes) :
    MemRange Bytes :=
  taskNode q.base q.size
    (some (loadBytes p.mem q.base q.size)) p.sender

/- The ranges of a post as the received map stores them. -/
def Post.items (p : Post) : List (MemRange Bytes) :=
  p.posted.ranges.map p.item

/- `channel_wait` on one post after the other. -/
def receiveAll
    (readMap writeMap : RangeMap Bytes) :
    List Post → RangeMap Bytes × Memory →
      Option (Outcome (RangeMap Bytes × Memory))
| [], st => some (.ret st)
| p :: rest, st =>
    match channelWait .spec p.id p.board readMap writeMap
        st.1 st.2 with
    | some (.ret st') => receiveAll readMap writeMap rest st'
    | blocked => blocked

/-
  Posts of different senders whose ranges are equal or
  disjoint.
-/
structure PostsAgree (posts : List Post) : Prop where
  visible : ∀ p ∈ posts, p.Visible
  senders : (posts.map Post.sender).Nodup
  extents : ∀ p ∈ posts, ∀ p' ∈ posts,
    ∀ q ∈ p.posted.ranges, ∀ q' ∈ p'.posted.ranges,
      EqualOrDisjoint q q'

/- The ranges of one post go in one after the other. -/
theorem foldlM_receiveRange_holds
    {start : Memory}
    (p : Post)
    (ranges items : List (MemRange Bytes))
    {st : RangeMap Bytes × Memory}
    (h : Holds start items st)
    (hValid : ∀ q ∈ ranges, q.Valid)
    (hFree : ∀ q ∈ ranges, ∀ s ∈ items, EqualOrDisjoint s q)
    (hPair : ∀ q ∈ ranges, ∀ s ∈ ranges,
      EqualOrDisjoint s q) :
    ∃ st',
      (ranges.map (loadRange p.mem)).foldlM
          (receiveRange p.sender) st = .ret st' ∧
      Holds start (items ++ ranges.map p.item) st' := by
  induction ranges generalizing items st with
  | nil =>
      refine ⟨st, rfl, ?_⟩
      simpa using h
  | cons q rest ih =>
      have hQ := hValid q List.mem_cons_self
      have hLoaded : (loadRange p.mem q).Valid :=
        ⟨hQ.pos, hQ.fits⟩
      rcases receiveRange_holds p.sender h hLoaded
          (hFree q List.mem_cons_self) with
        ⟨st₁, hReceive, hHolds⟩
      have hItem :
          taskNode (loadRange p.mem q).base
              (loadRange p.mem q).size
              (loadRange p.mem q).record p.sender =
            p.item q := rfl
      rw [hItem] at hHolds
      rcases ih (items ++ [p.item q]) hHolds
          (fun r hr => hValid r (List.mem_cons_of_mem q hr))
          (by
            intro r hr s hs
            rw [List.mem_append, List.mem_singleton] at hs
            rcases hs with hs | rfl
            · exact hFree r (List.mem_cons_of_mem q hr) s hs
            · exact hPair r (List.mem_cons_of_mem q hr) q
                List.mem_cons_self)
          (fun r hr s hs =>
            hPair r (List.mem_cons_of_mem q hr) s
              (List.mem_cons_of_mem q hs)) with
        ⟨st', hFold, hHolds'⟩
      refine ⟨st', ?_, ?_⟩
      · rw [List.map_cons, List.foldlM_cons, hReceive]
        exact hFold
      · rw [List.map_cons, List.append_cons]
        exact hHolds'

/- A wait on a visible post by a task with no accesses. -/
theorem channelWait_of_visible
    {p : Post}
    {readMap writeMap : RangeMap Bytes}
    (hVisible : p.Visible)
    (hRead : readMap.ranges = [])
    (hWrite : writeMap.ranges = [])
    (st : RangeMap Bytes × Memory) :
    channelWait .spec p.id p.board readMap writeMap st.1 st.2 =
      some ((p.posted.ranges.map (loadRange p.mem)).foldlM
        (receiveRange p.sender) st) := by
  rcases hVisible.source with ⟨src, hSource, hData, hSender⟩
  have hWell :=
    createPatch_wellFormed p.mem hVisible.wellFormed
  rw [(channelWait_of_source st.1 st.2 hVisible.isPosted
      hVisible.id_eq hSource (by rw [hData]; exact hWell)
      (by rw [hRead]; exact Apart.nil)
      (by rw [hWrite]; exact Apart.nil)).1
      ⟨disjoint_of_empty _ hRead,
        disjoint_of_empty _ hWrite⟩,
    hData, hSender,
    ranges_createPatch p.mem hVisible.wellFormed]

/- All posts, in the order of the list. -/
theorem receiveAll_holds
    {start : Memory}
    {readMap writeMap : RangeMap Bytes}
    (hRead : readMap.ranges = [])
    (hWrite : writeMap.ranges = [])
    (posts : List Post)
    (items : List (MemRange Bytes))
    {st : RangeMap Bytes × Memory}
    (h : Holds start items st)
    (hVisible : ∀ p ∈ posts, p.Visible)
    (hFree : ∀ p ∈ posts, ∀ q ∈ p.posted.ranges,
      ∀ s ∈ items, EqualOrDisjoint s q)
    (hExtents : ∀ p ∈ posts, ∀ p' ∈ posts,
      ∀ q ∈ p.posted.ranges, ∀ q' ∈ p'.posted.ranges,
        EqualOrDisjoint q q') :
    ∃ st', receiveAll readMap writeMap posts st =
        some (.ret st') ∧
      Holds start (items ++ posts.flatMap Post.items) st' := by
  induction posts generalizing items st with
  | nil =>
      refine ⟨st, rfl, ?_⟩
      simpa using h
  | cons p rest ih =>
      have hHead := hVisible p List.mem_cons_self
      rcases foldlM_receiveRange_holds p p.posted.ranges items
          h hHead.wellFormed.apart.valid
          (hFree p List.mem_cons_self)
          (fun q hq s hs =>
            hExtents p List.mem_cons_self p
              List.mem_cons_self s hs q hq) with
        ⟨st₁, hFold, hHolds⟩
      rcases ih (items ++ p.posted.ranges.map p.item) hHolds
          (fun p' hp' =>
            hVisible p' (List.mem_cons_of_mem p hp'))
          (by
            intro p' hp' q' hq' s hs
            rw [List.mem_append, List.mem_map] at hs
            rcases hs with hs | ⟨q, hq, rfl⟩
            · exact hFree p' (List.mem_cons_of_mem p hp') q'
                hq' s hs
            · exact hExtents p List.mem_cons_self p'
                (List.mem_cons_of_mem p hp') q hq q' hq')
          (fun p₁ h₁ p₂ h₂ =>
            hExtents p₁ (List.mem_cons_of_mem p h₁) p₂
              (List.mem_cons_of_mem p h₂)) with
        ⟨st', hRest, hHolds'⟩
      refine ⟨st', ?_, ?_⟩
      · unfold receiveAll
        rw [channelWait_of_visible hHead hRead hWrite st,
          hFold]
        exact hRest
      · rw [List.flatMap_cons, ← List.append_assoc]
        exact hHolds'

------------------------------------------------------------
-- Independence of the Order
------------------------------------------------------------

/- No later sender posted a range of this extent. -/
def Latest
    (posts : List Post)
    (p : Post)
    (q : MemRange Bytes) : Prop :=
  ∀ p' ∈ posts, ∀ q' ∈ p'.posted.ranges,
    SameExtent q' q → p'.sender ≤ p.sender

theorem mem_flatMap_items
    {posts : List Post}
    {r : MemRange Bytes} :
    r ∈ posts.flatMap Post.items ↔
      ∃ p ∈ posts, ∃ q ∈ p.posted.ranges, r = p.item q := by
  rw [List.mem_flatMap]
  constructor
  · intro h
    rcases h with ⟨p, hp, hr⟩
    rcases List.mem_map.mp hr with ⟨q, hq, rfl⟩
    exact ⟨p, hp, q, hq, rfl⟩
  · intro h
    rcases h with ⟨p, hp, q, hq, rfl⟩
    exact ⟨p, hp, List.mem_map_of_mem hq⟩

/- A sender has one post, and one range of an extent. -/
theorem PostsAgree.items_unique
    {posts : List Post}
    (h : PostsAgree posts) :
    ∀ r ∈ posts.flatMap Post.items,
      ∀ s ∈ posts.flatMap Post.items,
        SameExtent r s → r.task = s.task → r = s := by
  intro r hr s hs hSame hTask
  rcases mem_flatMap_items.mp hr with ⟨p, hp, q, hq, rfl⟩
  rcases mem_flatMap_items.mp hs with ⟨p', hp', q', hq', rfl⟩
  have hPost : p = p' :=
    List.inj_on_of_nodup_map h.senders hp hp' hTask
  rcases hSame with ⟨hBase, hSize⟩
  have hBase' : q.base = q'.base := hBase
  have hSize' : q.size = q'.size := hSize
  unfold Post.item
  rw [hPost, hBase', hSize']

/- A posted range holds the sender's bytes. -/
theorem byteAt_item
    {p : Post}
    {q : MemRange Bytes}
    {a : Nat}
    (ha : a ∈ q.addrs) :
    (p.item q).byteAt a = p.mem a := by
  rw [MemRange.mem_addrs] at ha
  have hIndex : a - q.base < q.size := by omega
  have hAddr : q.base + (a - q.base) = a := by omega
  simp [MemRange.byteAt, Post.item, taskNode, newNode,
    dataClone, loadBytes, hIndex, hAddr]

theorem holds_nothing
    {received : RangeMap Bytes}
    (mem : Memory)
    (hReceived : received.Keeps 0)
    (hNone : received.ranges = []) :
    Holds mem [] (received, mem) where
  keeps := hReceived
  mem_items := by simp [hNone]
  latest := by simp
  bytes := by simp [hNone]
  others := by simp

/-
  A task with empty access maps that receives posts of
  different senders, with equal or disjoint ranges, ends
  with the same received ranges and the same memory in every
  order: each range has the data of its latest sender, and
  memory elsewhere is unchanged.
-/
theorem receiveAll_order_independent
    {posts : List Post}
    {readMap writeMap received : RangeMap Bytes}
    (mem : Memory)
    (hPosts : PostsAgree posts)
    (hRead : readMap.ranges = [])
    (hWrite : writeMap.ranges = [])
    (hReceived : received.Keeps 0)
    (hNone : received.ranges = []) :
    ∃ ranges mem',
      (∀ order, order.Perm posts →
        ∃ received',
          receiveAll readMap writeMap order (received, mem) =
            some (.ret (received', mem')) ∧
          received'.Keeps 0 ∧ received'.ranges = ranges) ∧
      (∀ r, r ∈ ranges ↔
        ∃ p ∈ posts, ∃ q ∈ p.posted.ranges,
          r = p.item q ∧ Latest posts p q) ∧
      (∀ p ∈ posts, ∀ q ∈ p.posted.ranges,
        Latest posts p q → ∀ a ∈ q.addrs, mem' a = p.mem a) ∧
      (∀ a, (∀ p ∈ posts, a ∉ p.posted.covered) →
        mem' a = mem a) := by
  have hRun : ∀ order, order.Perm posts →
      ∃ st', receiveAll readMap writeMap order
          (received, mem) = some (.ret st') ∧
        Holds mem (order.flatMap Post.items) st' := by
    intro order hPerm
    rcases receiveAll_holds hRead hWrite order []
        (holds_nothing mem hReceived hNone)
        (fun p hp => hPosts.visible p (hPerm.subset hp))
        (by simp)
        (fun p hp p' hp' => hPosts.extents p (hPerm.subset hp)
          p' (hPerm.subset hp')) with
      ⟨st', hCall, hHolds⟩
    rw [List.nil_append] at hHolds
    exact ⟨st', hCall, hHolds⟩
  rcases hRun posts (List.Perm.refl posts) with
    ⟨st, _, hHolds⟩
  have hOne := hPosts.items_unique
  have hMem : ∀ r, r ∈ st.1.ranges ↔
      ∃ p ∈ posts, ∃ q ∈ p.posted.ranges,
        r = p.item q ∧ Latest posts p q := by
    intro r
    rw [hHolds.mem_ranges_iff hOne]
    constructor
    · intro h
      rcases h with ⟨hr, hMax⟩
      rcases mem_flatMap_items.mp hr with ⟨p, hp, q, hq, rfl⟩
      refine ⟨p, hp, q, hq, rfl, ?_⟩
      intro p' hp' q' hq' hSame
      exact hMax (p'.item q')
        (mem_flatMap_items.mpr ⟨p', hp', q', hq', rfl⟩) hSame
    · intro h
      rcases h with ⟨p, hp, q, hq, rfl, hLatest⟩
      refine ⟨mem_flatMap_items.mpr ⟨p, hp, q, hq, rfl⟩, ?_⟩
      intro s hs hSame
      rcases mem_flatMap_items.mp hs with
        ⟨p', hp', q', hq', rfl⟩
      exact hLatest p' hp' q' hq' hSame
  refine ⟨st.1.ranges, st.2, ?_, hMem, ?_, ?_⟩
  · intro order hPerm
    rcases hRun order hPerm with ⟨st', hCall, hHolds'⟩
    have hItems : ∀ r, r ∈ posts.flatMap Post.items ↔
        r ∈ order.flatMap Post.items := by
      intro r
      simp only [List.mem_flatMap, hPerm.mem_iff]
    rcases hHolds.unique hHolds' hItems hOne with
      ⟨hRanges, hMemory⟩
    refine ⟨st'.1, ?_, hHolds'.keeps, hRanges.symm⟩
    rw [hCall, hMemory]
  · intro p hp q hq hLatest a ha
    have hr := (hMem (p.item q)).mpr
      ⟨p, hp, q, hq, rfl, hLatest⟩
    rw [hHolds.bytes _ hr a ha]
    exact byteAt_item ha
  · intro a ha
    apply hHolds.others
    intro h
    rcases h with ⟨r, hr, haR⟩
    rcases mem_flatMap_items.mp hr with ⟨p, hp, q, hq, rfl⟩
    exact ha p hp ⟨q, hq, haR⟩

/- A post of the word at 8, all of its bytes alike. -/
def wordPost (id sender : Nat) (byte : UInt8) : Post where
  board := (postwaitInit 100 2).set (id % 100)
    { blankChannel with
      id := id
      sender := sender
      data := createPatch (fun _ => byte) (recordAll [(8, 4)])
      isPosted := true }
  id := id
  sender := sender
  posted := recordAll [(8, 4)]
  mem := fun _ => byte

theorem wordPost_visible
    (id sender : Nat)
    (byte : UInt8) :
    (wordPost id sender byte).Visible := by
  have hAt :
      (wordPost id sender byte).board.channels
          ((wordPost id sender byte).board.index id) =
        { blankChannel with
          id := id
          sender := sender
          data :=
            createPatch (fun _ => byte) (recordAll [(8, 4)])
          isPosted := true } :=
    Function.update_self _ _ _
  refine ⟨recordAll_wellFormed (by decide), ?_, ?_, ?_⟩
  · exact congrArg Channel.isPosted hAt
  · exact congrArg Channel.id hAt
  · refine ⟨_, congrArg (waitSource _) hAt, rfl, rfl⟩

/- Tasks 1 and 2 post the same word. -/
def twoPosts : List Post :=
  [wordPost 5 1 10, wordPost 6 2 20]

theorem twoPosts_agree : PostsAgree twoPosts where
  visible := by
    intro p hp
    rcases List.mem_pair.mp hp with rfl | rfl
    · exact wordPost_visible 5 1 10
    · exact wordPost_visible 6 2 20
  senders := by decide
  extents := by
    have hSame : ∀ q ∈ (recordAll [(8, 4)]).ranges,
        ∀ q' ∈ (recordAll [(8, 4)]).ranges,
          EqualOrDisjoint q q' := by
      decide
    intro p hp p' hp'
    rcases List.mem_pair.mp hp with rfl | rfl <;>
      rcases List.mem_pair.mp hp' with rfl | rfl <;>
      exact hSame

/- In either order the word has the bytes of task 2. -/
theorem receiveAll_twoPosts :
    ∃ mem' : Memory,
      (∀ order, order.Perm twoPosts → ∃ received',
        receiveAll initEmptyMap initEmptyMap order
            (initEmptyMap, fun _ => 0) =
          some (.ret (received', mem'))) ∧
      mem' 8 = 20 ∧ mem' 12 = 0 := by
  rcases receiveAll_order_independent (fun _ => 0)
      twoPosts_agree ranges_initEmptyMap ranges_initEmptyMap
      (keeps_initEmptyMap 0) ranges_initEmptyMap with
    ⟨ranges, mem', hOrders, _, hBytes, hOthers⟩
  refine ⟨mem', ?_, ?_, ?_⟩
  · intro order hPerm
    rcases hOrders order hPerm with ⟨received', hCall, _⟩
    exact ⟨received', hCall⟩
  · have hLatest :
        Latest twoPosts (wordPost 6 2 20)
          (newNode 8 4 none) := by
      intro p' hp' q' _ _
      rcases List.mem_pair.mp hp' with rfl | rfl
      · decide
      · decide
    apply hBytes (wordPost 6 2 20) (by simp [twoPosts])
      (newNode 8 4 none) (by decide) hLatest
    rw [MemRange.mem_addrs]
    decide
  · apply hOthers
    intro p hp
    have hOff : 12 ∉ (recordAll [(8, 4)]).covered := by
      intro h
      rcases h with ⟨r, hr, ha⟩
      rw [MemRange.mem_addrs] at ha
      have hR : r = newNode 8 4 none :=
        List.mem_singleton.mp hr
      rw [hR] at ha
      revert ha
      decide
    rcases List.mem_pair.mp hp with rfl | rfl
    · exact hOff
    · exact hOff

end Cbop
