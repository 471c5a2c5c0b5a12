import Mathlib.Data.List.Perm.Subperm
import Cbop.Lib.Chains
import Cbop.PostWait.Channel

/-
  Chaining of channels in `postwait.c`, where a post on one
  channel of a chain is meant to release all of them.

  A chain is a list through the slots of the board: every
  slot in it points to the first and to the next. The loops
  of the source follow these pointers; they are modelled
  with the size of the board as a bound, which suffices on
  every board whose pointers form a partition.

  Main declarations:
    * `getChannel`, `connectChain`, `channelChain`
    * `channelIsPosted`
    * `postChain_eq`, `channelChain_eq`
-/

namespace Cbop

------------------------------------------------------------
-- The Functions
------------------------------------------------------------

/-
  `get_channel`: the board with the slot of the channel
  allocated, and the slot. `none` where the source returns
  `NULL`, for lack of resource.
-/
def getChannel
    (board : SwitchBoard)
    (id : Nat) :
    SwitchBoard × Option Nat :=
  let i := board.index id
  let ch := board.channels i
  if ch.id ≠ 0 ∧ ch.id ≠ id then
    (board, none)
  else if ch.id = 0 then
    (board.set i { ch with id := id, data := initEmptyMap },
      some i)
  else
    (board, some i)

/- `set_chain`, on the slot `ch`. -/
def setChain
    (board : SwitchBoard)
    (ch : Nat)
    (fst nxt : Option Nat)
    (posted : Bool) :
    SwitchBoard :=
  board.set ch
    { board.channels ch with
      ccFirst := fst
      ccNext := nxt
      isPosted := posted }

/-
  The first loop of `connect_chain`, to the last slot of a
  chain. `none` is a loop that exceeds its bound.
-/
def chainEnd (board : SwitchBoard) : Nat → Nat → Option Nat
| 0, _ => none
| fuel + 1, p =>
    match (board.channels p).ccNext with
    | none => some p
    | some next => chainEnd board fuel next

/- The second loop, over the chain that is appended. -/
def appendChain
    (head : Nat)
    (posted : Bool) :
    Nat → SwitchBoard → Option Nat → Option SwitchBoard
| _, board, none => some board
| 0, _, some _ => none
| fuel + 1, board, some newCh =>
    let next := (board.channels newCh).ccNext
    appendChain head posted fuel
      (setChain board newCh (some head) next posted) next

/- `connect_chain`. -/
def connectChain
    (board : SwitchBoard)
    (head newCh : Nat)
    (posted : Bool) :
    Option SwitchBoard := do
  let newCh := (board.channels newCh).ccFirst.getD newCh
  let p ← chainEnd board board.size head
  appendChain head posted board.size
    (setChain board p (some head) (some newCh) posted)
    (some newCh)

/- `channel_chain`, once both slots are allocated. -/
def chainSlots
    (board : SwitchBoard)
    (ch1 ch2 : Nat) :
    Option SwitchBoard :=
  let posted :=
    (board.channels ch1).isPosted ||
      (board.channels ch2).isPosted
  match (board.channels ch1).ccFirst,
      (board.channels ch2).ccFirst with
  | none, none =>
      some (setChain
        (setChain board ch1 (some ch1) (some ch2) posted)
        ch2 (some ch1) none posted)
  | some head, _ => connectChain board head ch2 posted
  | none, some head => connectChain board head ch1 posted

/- `channel_chain`. -/
def channelChain
    (status : TaskStatus)
    (id1 id2 : Nat)
    (board : SwitchBoard) :
    Outcome SwitchBoard :=
  if status.aside then .ret board
  else
    let (board, ch1) := getChannel board id1
    let (board, ch2) := getChannel board id2
    match ch1, ch2 with
    | some ch1, some ch2 =>
        Outcome.ofOption (chainSlots board ch1 ch2)
    | _, _ => .ret board

/- `channel_is_posted`. -/
def channelIsPosted (board : SwitchBoard) (id : Nat) : Bool :=
  let ch := board.channels (board.index id)
  if ch.id ≠ id then false else ch.isPosted

------------------------------------------------------------
-- Chains on the Board
------------------------------------------------------------

namespace SwitchBoard

/- The pointers of the slots. -/
def first (board : SwitchBoard) (i : Nat) : Option Nat :=
  (board.channels i).ccFirst

def next (board : SwitchBoard) (i : Nat) : Option Nat :=
  (board.channels i).ccNext

/-
  The pointers form a partition, and no slot outside the
  board is in a chain.
-/
structure Chained (board : SwitchBoard) : Prop where
  partitioned : Chains.Partitioned board.first board.next
  inside : ∀ i f, board.first i = some f → i < board.size

/-
  The same of a board on which a list may have one slot, as
  after chaining a channel to itself.
-/
structure Listed (board : SwitchBoard) : Prop where
  listed : Chains.Listed board.first board.next
  inside : ∀ i f, board.first i = some f → i < board.size

theorem Chained.listed
    {board : SwitchBoard}
    (h : board.Chained) :
    board.Listed :=
  ⟨(Chains.partitioned_iff.mp h.partitioned).1, h.inside⟩

/- The same change to every slot of a list. -/
def update
    (board : SwitchBoard)
    (l : List Nat)
    (f : Channel → Channel) :
    SwitchBoard :=
  { board with
    channels := fun i =>
      if i ∈ l then f (board.channels i)
      else board.channels i }

/-
  One slot and then the rest of a list, for a change that
  makes no difference the second time.
-/
theorem update_set
    (board : SwitchBoard)
    (x : Nat)
    (rest : List Nat)
    {f : Channel → Channel}
    (hTwice : ∀ ch, f (f ch) = f ch) :
    (board.set x (f (board.channels x))).update rest f =
      board.update (x :: rest) f := by
  unfold update set
  congr 1
  funext i
  by_cases hx : i = x
  · subst hx
    by_cases hRest : i ∈ rest
    · simp [hRest, hTwice]
    · simp [hRest]
  · simp [hx]

theorem update_channels_of_mem
    (board : SwitchBoard)
    {l : List Nat}
    {i : Nat}
    (f : Channel → Channel)
    (h : i ∈ l) :
    (board.update l f).channels i = f (board.channels i) :=
  if_pos h

theorem update_channels_of_not_mem
    (board : SwitchBoard)
    {l : List Nat}
    {i : Nat}
    (f : Channel → Channel)
    (h : i ∉ l) :
    (board.update l f).channels i = board.channels i :=
  if_neg h

theorem update_singleton
    (board : SwitchBoard)
    (x : Nat)
    (f : Channel → Channel) :
    board.update [x] f =
      board.set x (f (board.channels x)) := by
  unfold update set
  congr 1
  funext i
  by_cases hx : i = x
  · subst hx
    simp
  · simp [hx]

theorem set_channels_of_ne
    (board : SwitchBoard)
    {x i : Nat}
    (ch : Channel)
    (h : i ≠ x) :
    (board.set x ch).channels i = board.channels i :=
  Function.update_of_ne h _ _

theorem set_channels_self
    (board : SwitchBoard)
    (x : Nat)
    (ch : Channel) :
    (board.set x ch).channels x = ch :=
  Function.update_self _ _ _

theorem set_id_self
    (board : SwitchBoard)
    {i id : Nat}
    (h : (board.channels i).id = id) :
    board.set i { board.channels i with id := id } =
      board := by
  subst h
  unfold set
  congr 1
  exact Function.update_eq_self i board.channels

end SwitchBoard

/- A channel once it is posted. -/
def markPosted (ch : Channel) : Channel :=
  { ch with isPosted := true }

/- A channel appended to the chain that starts at `head`. -/
def markChained
    (head : Nat)
    (posted : Bool)
    (ch : Channel) :
    Channel :=
  { ch with ccFirst := some head, isPosted := posted }

/- A change of a slot that keeps its next pointer. -/
theorem links_set
    {board : SwitchBoard}
    {x : Nat}
    {ch : Channel}
    {l : List Nat}
    (hLinks : Chains.Links board.next l)
    (hNext : ch.ccNext = (board.channels x).ccNext) :
    Chains.Links (board.set x ch).next l := by
  apply hLinks.congr
  intro i _
  unfold SwitchBoard.next
  by_cases hx : i = x
  · rw [hx, board.set_channels_self, hNext]
  · rw [board.set_channels_of_ne ch hx]

/- The loop of `channel_post` marks the whole chain. -/
theorem postChain_eq
    (fuel : Nat)
    (board : SwitchBoard)
    (l : List Nat)
    (hLinks : Chains.Links board.next l)
    (hFuel : l.length ≤ fuel) :
    postChain fuel board l.head? =
      some (board.update l markPosted) := by
  induction l generalizing fuel board with
  | nil =>
      unfold postChain
      simp [SwitchBoard.update]
  | cons x rest ih =>
      cases fuel with
      | zero => simp at hFuel
      | succ fuel =>
          have hNext :
              (board.channels x).ccNext = rest.head? :=
            hLinks.1
          have hRest := ih fuel
            (board.set x (markPosted (board.channels x)))
            (links_set hLinks.2 rfl)
            (by simpa using hFuel)
          have hTwice : ∀ ch : Channel,
              markPosted (markPosted ch) = markPosted ch :=
            fun _ => rfl
          rw [board.update_set x rest hTwice] at hRest
          rw [List.head?_cons, ← hRest, ← hNext]
          rfl

/- The second loop of `connect_chain` re-points a chain. -/
theorem appendChain_eq
    (head : Nat)
    (posted : Bool)
    (fuel : Nat)
    (board : SwitchBoard)
    (l : List Nat)
    (hLinks : Chains.Links board.next l)
    (hFuel : l.length ≤ fuel) :
    appendChain head posted fuel board l.head? =
      some (board.update l (markChained head posted)) := by
  induction l generalizing fuel board with
  | nil =>
      unfold appendChain
      simp [SwitchBoard.update]
  | cons x rest ih =>
      cases fuel with
      | zero => simp at hFuel
      | succ fuel =>
          have hNext :
              (board.channels x).ccNext = rest.head? :=
            hLinks.1
          have hRest := ih fuel
            (board.set x
              (markChained head posted (board.channels x)))
            (links_set hLinks.2 rfl)
            (by simpa using hFuel)
          have hTwice : ∀ ch : Channel,
              markChained head posted
                  (markChained head posted ch) =
                markChained head posted ch :=
            fun _ => rfl
          rw [board.update_set x rest hTwice] at hRest
          rw [List.head?_cons, ← hRest, ← hNext]
          rfl

/- The first loop of `connect_chain` finds the last slot. -/
theorem chainEnd_eq
    (board : SwitchBoard)
    (fuel : Nat)
    (x : Nat)
    (rest : List Nat)
    (hLinks : Chains.Links board.next (x :: rest))
    (hFuel : rest.length < fuel) :
    chainEnd board fuel x = (x :: rest).getLast? := by
  induction rest generalizing fuel x with
  | nil =>
      cases fuel with
      | zero => omega
      | succ fuel =>
          have hNext : (board.channels x).ccNext = none :=
            hLinks.1
          unfold chainEnd
          rw [hNext]
          rfl
  | cons y rest ih =>
      cases fuel with
      | zero => omega
      | succ fuel =>
          have hNext : (board.channels x).ccNext = some y :=
            hLinks.1
          unfold chainEnd
          rw [hNext, List.getLast?_cons_cons]
          exact ih fuel y hLinks.2 (by simpa using hFuel)

/- A chain is no longer than the board. -/
theorem SwitchBoard.Listed.length_le
    {board : SwitchBoard}
    (h : board.Listed)
    (hSize : 0 < board.size)
    {l : List Nat}
    (hl : Chains.Cell board.first board.next l) :
    l.length ≤ board.size := by
  cases hl with
  | loose i _ _ => exact hSize
  | chain f rest hNodup _ hMembers =>
      have hSub : f :: rest ⊆ List.range board.size := by
        intro i hi
        rw [List.mem_range]
        exact h.inside i f ((hMembers i).mpr hi)
      have hLe := (List.subperm_of_subset hNodup hSub).length_le
      rw [List.length_range] at hLe
      exact hLe

theorem SwitchBoard.Listed.chainEnd
    {board : SwitchBoard}
    (h : board.Listed)
    (hSize : 0 < board.size)
    {l : List Nat}
    {head p : Nat}
    (hl : Chains.Cell board.first board.next l)
    (hHead : l.head? = some head)
    (hLast : l.getLast? = some p) :
    Cbop.chainEnd board board.size head = some p := by
  cases l with
  | nil => cases hHead
  | cons x rest =>
      have hX : x = head := by
        simpa using hHead
      have hLe := h.length_le hSize hl
      rw [List.length_cons] at hLe
      rw [← hX, chainEnd_eq board board.size x rest hl.links
        (by omega), hLast]

------------------------------------------------------------
-- Joining Two Chains
------------------------------------------------------------

/-
  The board after the chain `m` is appended to the chain
  that starts at `head` and ends at `p`.
-/
def SwitchBoard.join
    (board : SwitchBoard)
    (m : List Nat)
    (head p : Nat)
    (posted : Bool) :
    SwitchBoard :=
  (setChain board p (some head) m.head? posted).update m
    (markChained head posted)

section JoinedSlots

variable {m : List Nat}
variable {p i : Nat}

/- A slot of the chain that was appended. -/
theorem SwitchBoard.join_channels_of_mem
    (board : SwitchBoard)
    (head : Nat)
    (posted : Bool)
    (hp : p ∉ m)
    (hi : i ∈ m) :
    (board.join m head p posted).channels i =
      markChained head posted (board.channels i) := by
  have hNe : i ≠ p := by
    intro hEq
    subst hEq
    exact hp hi
  unfold SwitchBoard.join setChain
  rw [SwitchBoard.update_channels_of_mem _ _ hi,
    board.set_channels_of_ne _ hNe]

/- The slot it was appended to. -/
theorem SwitchBoard.join_channels_last
    (board : SwitchBoard)
    (head : Nat)
    (posted : Bool)
    (hp : p ∉ m) :
    (board.join m head p posted).channels p =
      { board.channels p with
        ccFirst := some head
        ccNext := m.head?
        isPosted := posted } := by
  unfold SwitchBoard.join setChain
  rw [SwitchBoard.update_channels_of_not_mem _ _ hp,
    board.set_channels_self]

/- All other slots stay as they are. -/
theorem SwitchBoard.join_channels_of_not_mem
    (board : SwitchBoard)
    (head : Nat)
    (posted : Bool)
    (hi : i ∉ m)
    (hNe : i ≠ p) :
    (board.join m head p posted).channels i =
      board.channels i := by
  unfold SwitchBoard.join setChain
  rw [SwitchBoard.update_channels_of_not_mem _ _ hi,
    board.set_channels_of_ne _ hNe]

end JoinedSlots

/- All slots of a chain but the last point to its head. -/
theorem first_of_ne_last
    {board : SwitchBoard}
    {l : List Nat}
    {head p i : Nat}
    (hl : Chains.Cell board.first board.next l)
    (hHead : l.head? = some head)
    (hLast : l.getLast? = some p)
    (hi : i ∈ l)
    (hNe : i ≠ p) :
    board.first i = some head := by
  cases hl with
  | loose j _ _ =>
      rw [List.mem_singleton] at hi
      rw [List.getLast?_singleton, Option.some.injEq] at hLast
      exact absurd (hi.trans hLast) hNe
  | chain f rest _ _ hMembers =>
      have hF : f = head := by
        simpa using hHead
      rw [← hF]
      exact (hMembers i).mpr hi

/- The slot a chain is entered at, from any of its slots. -/
theorem getD_ccFirst
    {board : SwitchBoard}
    {m : List Nat}
    {x : Nat}
    (hm : Chains.Cell board.first board.next m)
    (hx : x ∈ m) :
    m.head? = some ((board.channels x).ccFirst.getD x) := by
  cases hFirst : (board.channels x).ccFirst with
  | some f => exact hm.first_mem hx hFirst
  | none =>
      cases hm with
      | loose i _ _ =>
          rw [List.mem_singleton] at hx
          rw [hx]
          rfl
      | chain f rest _ _ hMembers =>
          have hSome : (board.channels x).ccFirst = some f :=
            (hMembers x).mpr hx
          rw [hFirst] at hSome
          cases hSome

/- `connect_chain` of two different chains returns. -/
theorem connectChain_eq
    {board : SwitchBoard}
    {l m : List Nat}
    {head p x : Nat}
    (posted : Bool)
    (hBoard : board.Listed)
    (hSize : 0 < board.size)
    (hl : Chains.Cell board.first board.next l)
    (hm : Chains.Cell board.first board.next m)
    (hApart : ∀ i ∈ l, i ∉ m)
    (hHead : l.head? = some head)
    (hLast : l.getLast? = some p)
    (hx : x ∈ m) :
    connectChain board head x posted =
      some (board.join m head p posted) := by
  have hEnd := hBoard.chainEnd hSize hl hHead hLast
  have hp : p ∈ l := List.mem_of_getLast? hLast
  have hLinks : Chains.Links
      (setChain board p (some head) m.head? posted).next
      m := by
    apply hm.links.congr
    intro i hi
    have hNe : i ≠ p := by
      intro hEq
      exact hApart p hp (hEq ▸ hi)
    unfold SwitchBoard.next setChain
    rw [board.set_channels_of_ne _ hNe]
  unfold connectChain
  rw [hEnd, Option.bind_eq_bind, Option.bind_some,
    ← getD_ccFirst hm hx]
  exact appendChain_eq head posted board.size _ m hLinks
    (hBoard.length_le hSize hm)

/-
  What `channel_chain` does to two different chains: `m` is
  appended to `l`. The flag is set on `m` and on the last
  slot of `l`, the other slots of `l` keep theirs.
-/
structure Appended
    (board board' : SwitchBoard)
    (l m : List Nat)
    (posted : Bool) : Prop where
  size : board'.size = board.size
  ids : ∀ i,
    (board'.channels i).id = (board.channels i).id
  joined : ∃ f, Chains.Joined board.first board.next
    board'.first board'.next l m f
  posted_new : ∀ i, i ∈ m ∨ l.getLast? = some i →
    (board'.channels i).isPosted = posted
  posted_old : ∀ i, i ∉ m → l.getLast? ≠ some i →
    (board'.channels i).isPosted =
      (board.channels i).isPosted

theorem join_appended
    {board : SwitchBoard}
    {l m : List Nat}
    {head p : Nat}
    (posted : Bool)
    (hl : Chains.Cell board.first board.next l)
    (hApart : ∀ i ∈ l, i ∉ m)
    (hHead : l.head? = some head)
    (hLast : l.getLast? = some p) :
    Appended board (board.join m head p posted) l m
      posted := by
  have hp : p ∈ l := List.mem_of_getLast? hLast
  have hpm : p ∉ m := hApart p hp
  have hNew : ∀ i ∈ m,
      (board.join m head p posted).channels i =
        markChained head posted (board.channels i) :=
    fun i hi => board.join_channels_of_mem head posted hpm hi
  have hEnd := board.join_channels_last head posted hpm
  have hOld : ∀ i, i ∉ m → i ≠ p →
      (board.join m head p posted).channels i =
        board.channels i :=
    fun i hi hNe =>
      board.join_channels_of_not_mem head posted hi hNe
  constructor
  · rfl
  · intro i
    by_cases hi : i ∈ m
    · rw [hNew i hi]
      rfl
    · by_cases hNe : i = p
      · rw [hNe, hEnd]
      · rw [hOld i hi hNe]
  · refine ⟨head, hHead, ?_, ?_, ?_⟩
    · intro i
      unfold SwitchBoard.first
      by_cases hi : i ∈ m
      · rw [hNew i hi, if_pos (Or.inr hi)]
        rfl
      · by_cases hNe : i = p
        · rw [hNe, hEnd, if_pos (Or.inl hp)]
        · rw [hOld i hi hNe]
          by_cases hil : i ∈ l
          · rw [if_pos (Or.inl hil)]
            exact first_of_ne_last hl hHead hLast hil hNe
          · rw [if_neg (by tauto)]
    · intro q hq
      rw [hLast, Option.some.injEq] at hq
      unfold SwitchBoard.next
      rw [← hq, hEnd]
    · intro i hi
      have hNe : i ≠ p := by
        intro hEq
        subst hEq
        exact hi hLast
      unfold SwitchBoard.next
      by_cases him : i ∈ m
      · rw [hNew i him]
        rfl
      · rw [hOld i him hNe]
  · intro i hCases
    rcases hCases with hi | hi
    · rw [hNew i hi]
      rfl
    · rw [hLast, Option.some.injEq] at hi
      rw [← hi, hEnd]
  · intro i hi hNot
    have hNe : i ≠ p := by
      intro hEq
      subst hEq
      exact hNot hLast
    rw [hOld i hi hNe]

/- Two slots that are in no chain yet. -/
theorem join_singletons
    {board : SwitchBoard}
    {a b : Nat}
    (posted : Bool)
    (hNe : b ≠ a)
    (hNext : (board.channels b).ccNext = none) :
    board.join [b] a a posted =
      setChain (setChain board a (some a) (some b) posted)
        b (some a) none posted := by
  unfold SwitchBoard.join
  rw [SwitchBoard.update_singleton]
  unfold setChain markChained
  simp only [board.set_channels_of_ne _ hNe, hNext]
  rfl

/-
  `channel_chain` of slots in different chains. The chain of
  the second slot is appended to that of the first one,
  unless only the second one is in a chain with others.
-/
theorem chainSlots_appended
    {board : SwitchBoard}
    {a b : Nat}
    (hBoard : board.Listed)
    (hSize : 0 < board.size)
    (hApart : ¬Chains.SameBlock board.first a b) :
    ∃ board' l m,
      chainSlots board a b = some board' ∧
      Chains.Cell board.first board.next l ∧
      Chains.Cell board.first board.next m ∧
      (∀ i ∈ l, i ∉ m) ∧
      Appended board board' l m
        ((board.channels a).isPosted ||
          (board.channels b).isPosted) ∧
      (a ∈ l ∧ b ∈ m ∧
          (board.first a ≠ none ∨ board.first b = none) ∨
        b ∈ l ∧ a ∈ m ∧
          board.first a = none ∧ board.first b ≠ none) := by
  rcases hBoard.listed a with ⟨la, hla, haIn⟩
  rcases hBoard.listed b with ⟨lb, hlb, hbIn⟩
  obtain ⟨posted, hPosted⟩ : ∃ posted, posted =
      ((board.channels a).isPosted ||
        (board.channels b).isPosted) := ⟨_, rfl⟩
  have hDisjoint : ∀ i ∈ la, i ∉ lb := by
    intro i hi hi'
    apply hApart
    rw [← hla.mem_iff haIn b]
    exact hlb.mem_of_mem hla hi' hi hbIn
  have hDisjoint' : ∀ i ∈ lb, i ∉ la :=
    fun i hi hi' => hDisjoint i hi' hi
  rcases hla.last with ⟨pa, hLastA⟩
  rcases hlb.last with ⟨pb, hLastB⟩
  cases hFirstA : (board.channels a).ccFirst with
  | some head =>
      have hHead : la.head? = some head :=
        hla.first_mem haIn hFirstA
      refine ⟨board.join lb head pa posted, la, lb, ?_, hla,
        hlb, hDisjoint, ?_, Or.inl ⟨haIn, hbIn, ?_⟩⟩
      · unfold chainSlots
        rw [hFirstA, ← hPosted]
        exact connectChain_eq posted hBoard hSize hla hlb
          hDisjoint hHead hLastA hbIn
      · rw [← hPosted]
        exact join_appended posted hla hDisjoint hHead hLastA
      · left
        unfold SwitchBoard.first
        rw [hFirstA]
        simp
  | none =>
      cases hFirstB : (board.channels b).ccFirst with
      | some head =>
          have hHead : lb.head? = some head :=
            hlb.first_mem hbIn hFirstB
          refine ⟨board.join la head pb posted, lb, la, ?_,
            hlb, hla, hDisjoint', ?_,
            Or.inr ⟨hbIn, haIn, hFirstA, ?_⟩⟩
          · unfold chainSlots
            rw [hFirstA, hFirstB, ← hPosted]
            exact connectChain_eq posted hBoard hSize hlb hla
              hDisjoint' hHead hLastB haIn
          · rw [← hPosted]
            exact join_appended posted hlb hDisjoint' hHead
              hLastB
          · unfold SwitchBoard.first
            rw [hFirstB]
            simp
      | none =>
          have hA : la = [a] := hla.eq_singleton haIn hFirstA
          have hB : lb = [b] := hlb.eq_singleton hbIn hFirstB
          subst hA hB
          have hNextB : (board.channels b).ccNext = none :=
            hlb.links.1
          have hNe : b ≠ a := by
            intro hEq
            subst hEq
            exact hApart (Or.inl rfl)
          refine ⟨board.join [b] a a posted, [a], [b], ?_, hla,
            hlb, hDisjoint, ?_,
            Or.inl ⟨haIn, hbIn, Or.inr hFirstB⟩⟩
          · unfold chainSlots
            rw [hFirstA, hFirstB, ← hPosted]
            exact congrArg some
              (join_singletons posted hNe hNextB).symm
          · rw [← hPosted]
            exact join_appended posted hla hDisjoint rfl rfl

/- The slots of a chain are all on the board. -/
theorem SwitchBoard.Listed.lt_size
    {board : SwitchBoard}
    (h : board.Listed)
    {b : List Nat}
    {x i : Nat}
    (hb : Chains.Cell board.first board.next b)
    (hx : x ∈ b)
    (hLt : x < board.size)
    (hi : i ∈ b) :
    i < board.size := by
  rcases (hb.mem_iff hx i).mp hi with rfl | ⟨f, _, hFirst⟩
  · exact hLt
  · exact h.inside i f hFirst

/- The slots with pointers are those that had and the new. -/
theorem Appended.inside
    {board board' : SwitchBoard}
    {l m : List Nat}
    {posted : Bool}
    (h : Appended board board' l m posted)
    (hInside : ∀ i f, board.first i = some f →
      i < board.size)
    (hLt : ∀ i, i ∈ l ∨ i ∈ m → i < board.size)
    (i f : Nat)
    (hFirst : board'.first i = some f) :
    i < board'.size := by
  rcases h.joined with ⟨f', hJoined⟩
  rw [hJoined.first_eq] at hFirst
  rw [h.size]
  by_cases hi : i ∈ l ∨ i ∈ m
  · exact hLt i hi
  · rw [if_neg hi] at hFirst
    exact hInside i f hFirst

/- Appending keeps the lists. -/
theorem Appended.listed
    {board board' : SwitchBoard}
    {l m : List Nat}
    {posted : Bool}
    (h : Appended board board' l m posted)
    (hBoard : board.Listed)
    (hl : Chains.Cell board.first board.next l)
    (hm : Chains.Cell board.first board.next m)
    (hApart : ∀ i ∈ l, i ∉ m)
    (hLt : ∀ i, i ∈ l ∨ i ∈ m → i < board.size) :
    board'.Listed := by
  rcases h.joined with ⟨f, hJoined⟩
  exact ⟨hBoard.listed.join hl hm hApart hJoined,
    h.inside hBoard.inside hLt⟩

/- Appending keeps the partition. -/
theorem Appended.chained
    {board board' : SwitchBoard}
    {l m : List Nat}
    {posted : Bool}
    (h : Appended board board' l m posted)
    (hBoard : board.Chained)
    (hl : Chains.Cell board.first board.next l)
    (hm : Chains.Cell board.first board.next m)
    (hApart : ∀ i ∈ l, i ∉ m)
    (hLt : ∀ i, i ∈ l ∨ i ∈ m → i < board.size) :
    board'.Chained := by
  rcases h.joined with ⟨f, hJoined⟩
  exact ⟨hBoard.partitioned.join hl hm hApart hJoined,
    h.inside hBoard.inside hLt⟩

------------------------------------------------------------
-- Joining a Chain to Itself
------------------------------------------------------------

/- The second loop does not leave a circle. -/
theorem appendChain_circle
    (head : Nat)
    (posted : Bool)
    (fuel : Nat)
    (board : SwitchBoard)
    (l : List Nat)
    (hCircle : ∀ x ∈ l, ∃ y ∈ l, board.next x = some y)
    {x : Nat}
    (hx : x ∈ l) :
    appendChain head posted fuel board (some x) = none := by
  induction fuel generalizing board x with
  | zero => rfl
  | succ fuel ih =>
      rcases hCircle x hx with ⟨y, hy, hNext⟩
      have hNext' : (board.channels x).ccNext = some y := hNext
      unfold appendChain
      simp only [hNext']
      apply ih _ _ hy
      intro z hz
      rcases hCircle z hz with ⟨w, hw, hLink⟩
      refine ⟨w, hw, ?_⟩
      unfold SwitchBoard.next setChain at *
      by_cases hzx : z = x
      · rw [hzx, board.set_channels_self]
        rw [hzx, hNext'] at hLink
        exact hLink
      · rw [board.set_channels_of_ne _ hzx]
        exact hLink

/- `channel_chain` of two slots of one chain never returns. -/
theorem chainSlots_same
    {board : SwitchBoard}
    {a b f : Nat}
    (hBoard : board.Listed)
    (hSize : 0 < board.size)
    (hFirstA : board.first a = some f)
    (hFirstB : board.first b = some f) :
    chainSlots board a b = none := by
  rcases hBoard.listed a with ⟨l, hl, ha⟩
  have hHead := hl.first_mem ha hFirstA
  have hf : f ∈ l := List.mem_of_mem_head? hHead
  rcases hl.last with ⟨p, hLast⟩
  unfold SwitchBoard.first at hFirstA hFirstB
  unfold chainSlots connectChain
  simp only [hFirstA, hFirstB, Option.getD_some]
  rw [hBoard.chainEnd hSize hl hHead hLast,
    Option.bind_eq_bind, Option.bind_some]
  apply appendChain_circle f _ board.size _ l _ hf
  intro x hx
  unfold SwitchBoard.next setChain
  by_cases hxp : x = p
  · rw [hxp, board.set_channels_self]
    exact ⟨f, hf, rfl⟩
  · rw [board.set_channels_of_ne _ hxp]
    apply hl.links.next_mem hx
    rw [hLast]
    simpa using Ne.symm hxp

------------------------------------------------------------
-- Allocation
------------------------------------------------------------

namespace SwitchBoard

/- The slot of a channel holds another one. -/
def Taken (board : SwitchBoard) (id : Nat) : Prop :=
  (board.channels (board.index id)).id ≠ 0 ∧
    (board.channels (board.index id)).id ≠ id

instance (board : SwitchBoard) (id : Nat) :
    Decidable (board.Taken id) :=
  inferInstanceAs (Decidable (_ ∧ _))

/- The three branches of `get_channel`. -/
theorem getChannel_cases
    (board : SwitchBoard)
    (id : Nat) :
    (board.Taken id ∧ getChannel board id = (board, none)) ∨
    (¬board.Taken id ∧
      getChannel board id =
        (board.set (board.index id)
          { board.channels (board.index id) with
            id := id
            data := initEmptyMap },
          some (board.index id))) ∨
    ((board.channels (board.index id)).id = id ∧
      getChannel board id =
        (board, some (board.index id))) := by
  by_cases hTaken : board.Taken id
  · exact Or.inl ⟨hTaken, if_pos hTaken⟩
  · by_cases hZero : (board.channels (board.index id)).id = 0
    · exact Or.inr (Or.inl
        ⟨hTaken, (if_neg hTaken).trans (if_pos hZero)⟩)
    · have hOwn : (board.channels (board.index id)).id = id := by
        by_contra hOther
        exact hTaken ⟨hZero, hOther⟩
      exact Or.inr (Or.inr
        ⟨hOwn, (if_neg hTaken).trans (if_neg hZero)⟩)

/- The board after `get_channel`. -/
def allocate (board : SwitchBoard) (id : Nat) : SwitchBoard :=
  (getChannel board id).1

theorem getChannel_eq
    (board : SwitchBoard)
    (id : Nat) :
    getChannel board id =
      (board.allocate id,
        if board.Taken id then none
        else some (board.index id)) := by
  unfold allocate
  rcases board.getChannel_cases id with
    ⟨hTaken, hGet⟩ | ⟨hFree, hGet⟩ | ⟨hOwn, hGet⟩
  · rw [hGet, if_pos hTaken]
  · rw [hGet, if_neg hFree]
  · rw [hGet, if_neg (fun hTaken => hTaken.2 hOwn)]

@[simp] theorem allocate_size
    (board : SwitchBoard)
    (id : Nat) :
    (board.allocate id).size = board.size := by
  unfold allocate
  rcases board.getChannel_cases id with
    ⟨-, hGet⟩ | ⟨-, hGet⟩ | ⟨-, hGet⟩
  all_goals rw [hGet]
  rfl

@[simp] theorem allocate_index
    (board : SwitchBoard)
    (id id' : Nat) :
    (board.allocate id).index id' = board.index id' := by
  unfold index
  rw [allocate_size]

/- An allocation changes the slot of the channel only. -/
theorem allocate_of_ne
    (board : SwitchBoard)
    {id i : Nat}
    (h : i ≠ board.index id) :
    (board.allocate id).channels i = board.channels i := by
  unfold allocate
  rcases board.getChannel_cases id with
    ⟨-, hGet⟩ | ⟨-, hGet⟩ | ⟨-, hGet⟩
  all_goals rw [hGet]
  exact board.set_channels_of_ne _ h

/- An allocation changes no chain and no flag. -/
theorem allocate_links
    (board : SwitchBoard)
    (id i : Nat) :
    ((board.allocate id).channels i).ccFirst =
        (board.channels i).ccFirst ∧
      ((board.allocate id).channels i).ccNext =
        (board.channels i).ccNext ∧
      ((board.allocate id).channels i).isPosted =
        (board.channels i).isPosted := by
  by_cases hi : i = board.index id
  · rw [hi]
    unfold allocate
    rcases board.getChannel_cases id with
      ⟨-, hGet⟩ | ⟨-, hGet⟩ | ⟨-, hGet⟩
    all_goals rw [hGet]
    · exact ⟨rfl, rfl, rfl⟩
    · simp only [set_channels_self, and_self]
    · exact ⟨rfl, rfl, rfl⟩
  · rw [board.allocate_of_ne hi]
    exact ⟨rfl, rfl, rfl⟩

@[simp] theorem allocate_first
    (board : SwitchBoard)
    (id : Nat) :
    (board.allocate id).first = board.first :=
  funext fun i => (board.allocate_links id i).1

@[simp] theorem allocate_next
    (board : SwitchBoard)
    (id : Nat) :
    (board.allocate id).next = board.next :=
  funext fun i => (board.allocate_links id i).2.1

@[simp] theorem allocate_isPosted
    (board : SwitchBoard)
    (id i : Nat) :
    ((board.allocate id).channels i).isPosted =
      (board.channels i).isPosted :=
  (board.allocate_links id i).2.2

theorem allocate_id_self
    (board : SwitchBoard)
    {id : Nat}
    (h : ¬board.Taken id) :
    ((board.allocate id).channels (board.index id)).id =
      id := by
  unfold allocate
  rcases board.getChannel_cases id with
    ⟨hTaken, -⟩ | ⟨-, hGet⟩ | ⟨hOwn, hGet⟩
  · exact absurd hTaken h
  · rw [hGet]
    simp only [set_channels_self]
  · rw [hGet]
    exact hOwn

/- A channel keeps its slot. -/
theorem allocate_id_keeps
    (board : SwitchBoard)
    (id : Nat)
    {i : Nat}
    (h : (board.channels i).id ≠ 0) :
    ((board.allocate id).channels i).id =
      (board.channels i).id := by
  by_cases hi : i = board.index id
  · subst hi
    by_cases hTaken : board.Taken id
    · rcases board.getChannel_cases id with
        ⟨-, hGet⟩ | ⟨hFree, -⟩ | ⟨hOwn, -⟩
      · unfold allocate
        rw [hGet]
      · exact absurd hTaken hFree
      · exact absurd hOwn hTaken.2
    · rw [board.allocate_id_self hTaken]
      by_contra hOther
      exact hTaken ⟨h, fun hEq => hOther hEq.symm⟩
  · rw [board.allocate_of_ne hi]

theorem Listed.allocate
    {board : SwitchBoard}
    (h : board.Listed)
    (id : Nat) :
    (board.allocate id).Listed := by
  refine ⟨?_, ?_⟩
  · rw [allocate_first, allocate_next]
    exact h.listed
  · rw [allocate_first, allocate_size]
    exact h.inside

theorem Chained.allocate
    {board : SwitchBoard}
    (h : board.Chained)
    (id : Nat) :
    (board.allocate id).Chained := by
  refine ⟨?_, ?_⟩
  · rw [allocate_first, allocate_next]
    exact h.partitioned
  · rw [allocate_first, allocate_size]
    exact h.inside

end SwitchBoard

/- `channel_chain` of a task that takes part in the group. -/
theorem channelChain_eq
    {status : TaskStatus}
    (id1 id2 : Nat)
    (board : SwitchBoard)
    (hStatus : status.aside = false) :
    channelChain status id1 id2 board =
      if board.Taken id1 ∨ (board.allocate id1).Taken id2 then
        .ret ((board.allocate id1).allocate id2)
      else
        Outcome.ofOption
          (chainSlots ((board.allocate id1).allocate id2)
            (board.index id1) (board.index id2)) := by
  unfold channelChain
  rw [hStatus]
  simp only [Bool.false_eq_true, if_false,
    SwitchBoard.getChannel_eq, SwitchBoard.allocate_index]
  by_cases h1 : board.Taken id1
  · simp [h1]
  · by_cases h2 : (board.allocate id1).Taken id2
    · simp [h1, h2]
    · simp [h1, h2]

------------------------------------------------------------
-- Posting on a Chain
------------------------------------------------------------

/- A post of this task on this board is not ignored. -/
structure Posts
    (status : TaskStatus)
    (localCh : LocalChannel)
    (id : Nat)
    (board : SwitchBoard) : Prop where
  status : status.aside = false
  serves : localCh.Serves id
  free : ¬board.Taken id
  isPosted :
    (board.channels (board.index id)).isPosted = false

instance
    (status : TaskStatus)
    (localCh : LocalChannel)
    (id : Nat)
    (board : SwitchBoard) :
    Decidable (Posts status localCh id board) :=
  decidable_of_iff
    (status.aside = false ∧
      (localCh.id = 0 ∨ localCh.id = id) ∧
      ¬board.Taken id ∧
      (board.channels (board.index id)).isPosted = false)
    ⟨fun ⟨h1, h2, h3, h4⟩ => ⟨h1, h2, h3, h4⟩,
      fun h => ⟨h.status, h.serves, h.free, h.isPosted⟩⟩

/- The board rejects a post of this task. -/
structure Rejected
    (status : TaskStatus)
    (localCh : LocalChannel)
    (id : Nat)
    (board : SwitchBoard) : Prop where
  status : status.aside = false
  serves : localCh.Serves id
  refused : board.Taken id ∨
    (board.channels (board.index id)).isPosted = true

/- The task's part of the guards lets a post through. -/
theorem not_ignored
    {status : TaskStatus}
    {localCh : LocalChannel}
    {id : Nat}
    (hStatus : status.aside = false)
    (hServes : localCh.Serves id) :
    ¬(status.aside = true ∨ ¬localCh.Serves id) := by
  intro hCases
  rcases hCases with hAside | hOther
  · rw [hStatus] at hAside
    cases hAside
  · exact hOther hServes

theorem Rejected.not_posts
    {status : TaskStatus}
    {localCh : LocalChannel}
    {id : Nat}
    {board : SwitchBoard}
    (h : Rejected status localCh id board) :
    ¬Posts status localCh id board := by
  intro hPosts
  rcases h.refused with hTaken | hPosted
  · exact hPosts.free hTaken
  · rw [hPosts.isPosted] at hPosted
    cases hPosted

/- The chain of the channel is posted, nothing else is. -/
structure Released
    (board board' : SwitchBoard)
    (id : Nat) : Prop where
  size : board'.size = board.size
  id_self : (board'.channels (board.index id)).id = id
  id_other : ∀ i, i ≠ board.index id →
    (board'.channels i).id = (board.channels i).id
  first : board'.first = board.first
  next : board'.next = board.next
  posted : ∀ i, (board'.channels i).isPosted = true ↔
    (board.channels i).isPosted = true ∨
      Chains.SameBlock board.first (board.index id) i

/- A post changes no chain. -/
theorem Released.listed
    {board board' : SwitchBoard}
    {id : Nat}
    (h : Released board board' id)
    (hBoard : board.Listed) :
    board'.Listed := by
  constructor
  · rw [h.first, h.next]
    exact hBoard.listed
  · rw [h.first, h.size]
    exact hBoard.inside

theorem Released.chained
    {board board' : SwitchBoard}
    {id : Nat}
    (h : Released board board' id)
    (hBoard : board.Chained) :
    board'.Chained := by
  constructor
  · rw [h.first, h.next]
    exact hBoard.partitioned
  · rw [h.first, h.size]
    exact hBoard.inside

/- It does not matter that the slot was allocated before. -/
theorem Released.allocate
    {board board' : SwitchBoard}
    {id : Nat}
    (h : Released board board' id) :
    Released (board.allocate id) board' id := by
  constructor
  · rw [board.allocate_size]
    exact h.size
  · rw [board.allocate_index]
    exact h.id_self
  · intro i hi
    rw [board.allocate_index] at hi
    rw [board.allocate_of_ne hi]
    exact h.id_other i hi
  · rw [board.allocate_first]
    exact h.first
  · rw [board.allocate_next]
    exact h.next
  · intro i
    rw [board.allocate_isPosted, board.allocate_first,
      board.allocate_index]
    exact h.posted i

/- The flags after a post on a slot that is in no chain. -/
theorem released_alone
    {board : SwitchBoard}
    {id : Nat}
    {ch : Channel}
    (hId : ch.id = id)
    (hFirst : (board.channels (board.index id)).ccFirst = none)
    (hFirst' : ch.ccFirst = none)
    (hNext' : ch.ccNext =
      (board.channels (board.index id)).ccNext)
    (hPosted : ch.isPosted = true) :
    Released board (board.set (board.index id) ch) id := by
  constructor
  · rfl
  · rw [board.set_channels_self, hId]
  · intro i hi
    rw [board.set_channels_of_ne ch hi]
  · funext i
    unfold SwitchBoard.first
    by_cases hi : i = board.index id
    · rw [hi, board.set_channels_self, hFirst, hFirst']
    · rw [board.set_channels_of_ne ch hi]
  · funext i
    unfold SwitchBoard.next
    by_cases hi : i = board.index id
    · rw [hi, board.set_channels_self, hNext']
    · rw [board.set_channels_of_ne ch hi]
  · intro i
    by_cases hi : i = board.index id
    · rw [hi, board.set_channels_self, hPosted]
      simp [Chains.SameBlock]
    · rw [board.set_channels_of_ne ch hi]
      have hNot :
          ¬Chains.SameBlock board.first (board.index id) i := by
        intro hCases
        rcases hCases with hEq | ⟨f, hF, -⟩
        · exact hi hEq.symm
        · rw [SwitchBoard.first, hFirst] at hF
          cases hF
      simp [hNot]

/- The flags after the loop over a chain. -/
theorem released_chain
    {board : SwitchBoard}
    {id : Nat}
    {ch : Channel}
    {l : List Nat}
    (hl : Chains.Cell board.first board.next l)
    (hIn : board.index id ∈ l)
    (hId : ch.id = id)
    (hFirst : ch.ccFirst =
      (board.channels (board.index id)).ccFirst)
    (hNext : ch.ccNext =
      (board.channels (board.index id)).ccNext) :
    Released board
      ((board.set (board.index id) ch).update l markPosted)
      id := by
  obtain ⟨mid, hMid⟩ : ∃ mid, mid =
      board.set (board.index id) ch := ⟨_, rfl⟩
  have hSelf : mid.channels (board.index id) = ch := by
    rw [hMid, board.set_channels_self]
  have hOther : ∀ i, i ≠ board.index id →
      mid.channels i = board.channels i := by
    intro i hi
    rw [hMid, board.set_channels_of_ne ch hi]
  -- a mark changes the flag of a channel only
  have hMark : ∀ i,
      (mid.update l markPosted).channels i =
        { mid.channels i with
          isPosted := decide (i ∈ l) ||
            (mid.channels i).isPosted } := by
    intro i
    by_cases hi : i ∈ l
    · rw [mid.update_channels_of_mem _ hi]
      simp [markPosted, hi]
    · rw [mid.update_channels_of_not_mem _ hi]
      simp [hi]
  rw [← hMid]
  constructor
  · rw [hMid]
    rfl
  · rw [hMark, hSelf]
    exact hId
  · intro i hi
    rw [hMark, hOther i hi]
  · funext i
    unfold SwitchBoard.first
    rw [hMark]
    by_cases hi : i = board.index id
    · rw [hi, hSelf]
      exact hFirst
    · rw [hOther i hi]
  · funext i
    unfold SwitchBoard.next
    rw [hMark]
    by_cases hi : i = board.index id
    · rw [hi, hSelf]
      exact hNext
    · rw [hOther i hi]
  · intro i
    rw [hMark, Bool.or_eq_true, decide_eq_true_eq,
      hl.mem_iff hIn i]
    by_cases hi : i = board.index id
    · simp [hi, Chains.SameBlock]
    · rw [hOther i hi]
      exact or_comm

/- A channel with the data of a post. -/
def Channel.fill
    (ch : Channel)
    (id sender : Nat)
    (data : RangeMap Bytes) :
    Channel :=
  { ch with id := id, sender := sender, data := data }

/- The board `channel_post` leaves, after the new data. -/
def postSlot
    (board : SwitchBoard)
    (i : Nat)
    (ch : Channel) :
    Outcome SwitchBoard :=
  match ch.ccFirst with
  | none => .ret (board.set i { ch with isPosted := true })
  | some first =>
      Outcome.ofOption
        (postChain board.size (board.set i ch) (some first))

/- It returns, with the whole chain posted. -/
theorem postSlot_released
    {board : SwitchBoard}
    (id sender : Nat)
    (data : RangeMap Bytes)
    (hBoard : board.Listed)
    (hSize : 0 < board.size) :
    ∃ board',
      postSlot board (board.index id)
        ((board.channels (board.index id)).fill id sender
          data) = .ret board' ∧
      Released board board' id := by
  obtain ⟨ch, hCh⟩ : ∃ ch, ch =
      (board.channels (board.index id)).fill id sender
        data := ⟨_, rfl⟩
  have hId : ch.id = id := by
    rw [hCh]
    rfl
  have hFirst : ch.ccFirst =
      (board.channels (board.index id)).ccFirst := by
    rw [hCh]
    rfl
  have hNext : ch.ccNext =
      (board.channels (board.index id)).ccNext := by
    rw [hCh]
    rfl
  rw [← hCh]
  unfold postSlot
  cases hHead : ch.ccFirst with
  | none =>
      exact ⟨_, rfl, released_alone hId
        (hFirst.symm.trans hHead) rfl hNext rfl⟩
  | some first =>
      rcases hBoard.listed (board.index id) with
        ⟨l, hl, hIn⟩
      refine ⟨_, ?_, released_chain hl hIn hId hFirst hNext⟩
      have hLoop := postChain_eq board.size
        (board.set (board.index id) ch) l
        (links_set hl.links hNext)
        (hBoard.length_le hSize hl)
      rw [hl.first_mem hIn (hFirst.symm.trans hHead)] at hLoop
      exact congrArg Outcome.ofOption hLoop

/- The part of `channel_post` after its guards. -/
theorem channelPost_eq
    {status : TaskStatus}
    (pprIndex : Nat)
    {id : Nat}
    (mem : Memory)
    (board : SwitchBoard)
    {localCh : LocalChannel}
    (writeMap : RangeMap Bytes)
    (hStatus : status.aside = false)
    (hId : id ≠ 0)
    (hServes : localCh.Serves id) :
    channelPost status pprIndex id mem board localCh
        writeMap =
      (Outcome.ofOption (mapIntersect localCh.data writeMap)
        >>= fun data =>
      if board.Taken id then
        .ret (board, { localCh with data := data }, writeMap)
      else if (board.channels (board.index id)).isPosted then
        .ret (board.set (board.index id)
            { board.channels (board.index id) with id := id },
          { localCh with data := data }, writeMap)
      else
        postSlot board (board.index id)
          ((board.channels (board.index id)).fill id pprIndex
            (createPatch mem data)) >>= fun board' =>
        Outcome.ofOption (mapSubtract writeMap data)
          >>= fun writeMap' =>
        .ret (board',
          channelLocalReset { localCh with data := data },
          writeMap')) := by
  unfold channelPost
  rw [hStatus, hasLocalChannel_of_serves hId hServes,
    if_neg Bool.false_ne_true, Outcome.ret_bind, Bool.not_true,
    if_neg Bool.false_ne_true]
  congr 1
  funext data
  unfold SwitchBoard.Taken postSlot
  cases hFirst :
      (board.channels (board.index id)).ccFirst with
  | none =>
      simp only [hFirst, Channel.fill]
  | some first =>
      simp only [hFirst, Channel.fill]

/- A post that is ignored before it looks at the board. -/
theorem channelPost_ignored
    {status : TaskStatus}
    (pprIndex : Nat)
    {id : Nat}
    (mem : Memory)
    (board : SwitchBoard)
    {localCh : LocalChannel}
    (writeMap : RangeMap Bytes)
    (hId : id ≠ 0)
    (h : status.aside = true ∨ ¬localCh.Serves id) :
    channelPost status pprIndex id mem board localCh
      writeMap = .ret (board, localCh, writeMap) := by
  unfold channelPost
  by_cases hAside : status.aside = true
  · rw [if_pos hAside]
  · rcases h with hTrue | hOther
    · exact absurd hTrue hAside
    · have hHas : hasLocalChannel localCh id = .ret false := by
        unfold hasLocalChannel LocalChannel.Serves at *
        rw [if_neg hId]
        simpa using hOther
      rw [if_neg hAside, hHas, Outcome.ret_bind, Bool.not_false,
        if_pos rfl]

/-
  The three ways `channel_post` returns: the task's call is
  ignored, the board rejects it, or it posts.
-/
theorem channelPost_inv
    {status : TaskStatus}
    {pprIndex id : Nat}
    {mem : Memory}
    {board board' : SwitchBoard}
    {localCh localCh' : LocalChannel}
    {writeMap writeMap' : RangeMap Bytes}
    (h : channelPost status pprIndex id mem board localCh
      writeMap = .ret (board', localCh', writeMap')) :
    ((status.aside = true ∨ ¬localCh.Serves id) ∧
      board' = board ∧ localCh' = localCh ∧
      writeMap' = writeMap) ∨
    id ≠ 0 ∧
    ∃ data, mapIntersect localCh.data writeMap = some data ∧
      ((Rejected status localCh id board ∧
        (board' = board ∨
          ¬board.Taken id ∧
          (board.channels (board.index id)).isPosted = true ∧
          board' = board.set (board.index id)
            { board.channels (board.index id) with
              id := id }) ∧
        localCh' = { localCh with data := data } ∧
        writeMap' = writeMap) ∨
      (Posts status localCh id board ∧
        postSlot board (board.index id)
          ((board.channels (board.index id)).fill id pprIndex
            (createPatch mem data)) = .ret board' ∧
        mapSubtract writeMap data = some writeMap' ∧
        localCh' =
          channelLocalReset { localCh with data := data })) := by
  by_cases hId : id = 0
  · -- the assertion of `has_local_channel`
    left
    unfold channelPost hasLocalChannel at h
    by_cases hAside : status.aside = true
    · rw [if_pos hAside] at h
      cases h
      exact ⟨Or.inl hAside, rfl, rfl, rfl⟩
    · rw [if_neg hAside, if_pos hId] at h
      cases h
  by_cases hGuards : status.aside = false ∧ localCh.Serves id
  · rcases hGuards with ⟨hStatus, hServes⟩
    rw [channelPost_eq pprIndex mem board writeMap hStatus hId
      hServes, Outcome.bind_eq_ret_iff] at h
    rcases h with ⟨data, hData, h⟩
    rw [Outcome.ofOption_eq_ret_iff] at hData
    refine Or.inr ⟨hId, data, hData, ?_⟩
    by_cases hTaken : board.Taken id
    · rw [if_pos hTaken] at h
      cases h
      exact Or.inl ⟨⟨hStatus, hServes, Or.inl hTaken⟩,
        Or.inl rfl, rfl, rfl⟩
    · rw [if_neg hTaken] at h
      cases hPosted :
          (board.channels (board.index id)).isPosted with
      | true =>
          rw [if_pos hPosted] at h
          cases h
          exact Or.inl ⟨⟨hStatus, hServes, Or.inr hPosted⟩,
            Or.inr ⟨hTaken, rfl, rfl⟩, rfl, rfl⟩
      | false =>
          rw [hPosted, if_neg Bool.false_ne_true,
            Outcome.bind_eq_ret_iff] at h
          rcases h with ⟨board₁, hSlot, h⟩
          rw [Outcome.bind_eq_ret_iff] at h
          rcases h with ⟨writeMap₁, hSub, h⟩
          rw [Outcome.ofOption_eq_ret_iff] at hSub
          cases h
          exact Or.inr
            ⟨⟨hStatus, hServes, hTaken, hPosted⟩, hSlot, hSub,
              rfl⟩
  · have hIgnored :
        status.aside = true ∨ ¬localCh.Serves id := by
      rw [← Bool.not_eq_false]
      tauto
    rw [channelPost_ignored pprIndex mem board writeMap hId
      hIgnored] at h
    cases h
    exact Or.inl ⟨hIgnored, rfl, rfl, rfl⟩

/-
  What `channel_post` does to the board: nothing if it is
  ignored, and else the whole chain is posted.
-/
theorem channelPost_cases
    {status : TaskStatus}
    {pprIndex id : Nat}
    {mem : Memory}
    {board board' : SwitchBoard}
    {localCh localCh' : LocalChannel}
    {writeMap writeMap' : RangeMap Bytes}
    (hBoard : board.Listed)
    (hSize : 0 < board.size)
    (h : channelPost status pprIndex id mem board localCh
      writeMap = .ret (board', localCh', writeMap')) :
    (¬Posts status localCh id board ∧
      (board' = board ∨
        ¬board.Taken id ∧
        (board.channels (board.index id)).isPosted = true ∧
        board' = board.set (board.index id)
          { board.channels (board.index id) with
            id := id })) ∨
    (Posts status localCh id board ∧
      Released board board' id) := by
  rcases channelPost_inv h with
    ⟨hIgnored, hBoard', _, _⟩ |
    ⟨_, data, _, ⟨hRejected, hBoard', _, _⟩ |
      ⟨hPosts, hSlot, _, _⟩⟩
  · exact Or.inl ⟨fun hPosts =>
      not_ignored hPosts.status hPosts.serves hIgnored,
      Or.inl hBoard'⟩
  · exact Or.inl ⟨hRejected.not_posts, hBoard'⟩
  · rcases postSlot_released id pprIndex
        (createPatch mem data) hBoard hSize with
      ⟨board₁, hSlot', hReleased⟩
    rw [hSlot, Outcome.ret.injEq] at hSlot'
    rw [hSlot']
    exact Or.inr ⟨hPosts, hReleased⟩

/- A post that is not ignored posts the whole chain. -/
theorem channelPost_released
    {status : TaskStatus}
    {pprIndex id : Nat}
    {mem : Memory}
    {board board' : SwitchBoard}
    {localCh localCh' : LocalChannel}
    {writeMap writeMap' : RangeMap Bytes}
    (hBoard : board.Listed)
    (hSize : 0 < board.size)
    (hPosts : Posts status localCh id board)
    (h : channelPost status pprIndex id mem board localCh
      writeMap = .ret (board', localCh', writeMap')) :
    Released board board' id := by
  rcases channelPost_cases hBoard hSize h with
    ⟨hNot, _⟩ | ⟨_, hReleased⟩
  · exact absurd hPosts hNot
  · exact hReleased

/- With proper maps `channel_post` returns. -/
theorem channelPost_returns
    (status : TaskStatus)
    (pprIndex : Nat)
    {id : Nat}
    (mem : Memory)
    {board : SwitchBoard}
    {localCh : LocalChannel}
    {writeMap : RangeMap Bytes}
    (hId : id ≠ 0)
    (hBoard : board.Listed)
    (hSize : 0 < board.size)
    (hLocal : localCh.data.WellFormed)
    (hWrite : writeMap.WellFormed) :
    ∃ board' localCh' writeMap',
      channelPost status pprIndex id mem board localCh
        writeMap = .ret (board', localCh', writeMap') := by
  rcases mapIntersect_spec hLocal hWrite with
    ⟨data, hData, hDataWell, -⟩
  rcases mapSubtract_spec hWrite hDataWell with
    ⟨writeMap', hSub, -⟩
  by_cases hGuards : status.aside = false ∧ localCh.Serves id
  · rcases hGuards with ⟨hStatus, hServes⟩
    rw [channelPost_eq pprIndex mem board writeMap hStatus hId
      hServes, hData]
    by_cases hTaken : board.Taken id
    · exact ⟨_, _, _, if_pos hTaken⟩
    · by_cases hPosted :
          (board.channels (board.index id)).isPosted = true
      · exact ⟨_, _, _,
          (if_neg hTaken).trans (if_pos hPosted)⟩
      · rcases postSlot_released id pprIndex
            (createPatch mem data) hBoard hSize with
          ⟨board', hSlot, -⟩
        refine ⟨board',
          channelLocalReset { localCh with data := data },
          writeMap', ?_⟩
        refine (if_neg hTaken).trans
          ((if_neg hPosted).trans ?_)
        rw [hSlot, hSub]
        rfl
  · exact ⟨_, _, _, channelPost_ignored pprIndex mem board
      writeMap hId (by
        rw [← Bool.not_eq_false]
        tauto)⟩

end Cbop
