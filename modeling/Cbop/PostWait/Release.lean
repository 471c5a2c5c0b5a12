import Cbop.PostWait.Orderly

/-
  Which channels a post releases, through a sequence of
  `channel_post` and `channel_chain` calls.

  The chains of the board are the connected components of
  the chained pairs. A post marks its whole chain, and so
  does a chain call, except in one case: when a posted chain
  is appended to one that is not, only the last channel of
  the latter is marked.

  Main declarations:
    * `ChainCall`, `ChainState`
    * `ChainShape`, `FlagsAgree`
    * `staysWhole_iff`
-/

namespace Cbop

------------------------------------------------------------
-- Sequences of Calls
------------------------------------------------------------

/- What `channel_post` reads of the task that posts. -/
structure Sender where
  status : TaskStatus
  pprIndex : Nat
  mem : Memory
  localCh : LocalChannel
  writeMap : RangeMap Bytes
  localWell : localCh.data.WellFormed
  writeWell : writeMap.WellFormed

/- A call on the switch board. -/
inductive ChainCall where
| post (sender : Sender) (id : Nat)
| chain (status : TaskStatus) (id1 id2 : Nat)

/- The channels a call names. -/
def ChainCall.ids : ChainCall → List Nat
| .post _ id => [id]
| .chain _ id1 id2 => [id1, id2]

/-
  The board, with the pairs that were chained and the
  channels that were successfully posted so far.
-/
structure ChainState where
  board : SwitchBoard
  pairs : List (Nat × Nat)
  posts : List Nat

/- A freshly initialised board. -/
def freshState (size gs : Nat) : ChainState where
  board := postwaitInit size gs
  pairs := []
  posts := []

def ChainCall.run :
    ChainCall → ChainState → Outcome ChainState
| .post s id, st => do
    let (board, _, _) ← channelPost s.status s.pprIndex id
      s.mem st.board s.localCh s.writeMap
    .ret { st with
      board := board
      posts :=
        if Posts s.status s.localCh id st.board then
          id :: st.posts
        else st.posts }
| .chain status id1 id2, st => do
    let board ← channelChain status id1 id2 st.board
    .ret { st with
      board := board
      pairs :=
        if status.aside then st.pairs
        else (id1, id2) :: st.pairs }

/- The channels are in one class of the chained pairs. -/
def Connected (pairs : List (Nat × Nat)) : Nat → Nat → Prop :=
  Relation.EqvGen (fun a b => (a, b) ∈ pairs)

/-
  A channel is posted exactly if one of its class was
  successfully posted.
-/
def ChainState.Whole (st : ChainState) : Prop :=
  ∀ id, 0 < id →
    (channelIsPosted st.board id = true ↔
      ∃ p ∈ st.posts, Connected st.pairs id p)

/- Every call returns, and this holds after each of them. -/
def StaysWhole : ChainState → List ChainCall → Prop
| st, [] => st.Whole
| st, call :: rest =>
    st.Whole ∧
      match call.run st with
      | .ret st' => StaysWhole st' rest
      | .abort => False
      | .fault => False

theorem StaysWhole.whole
    {st : ChainState}
    {calls : List ChainCall}
    (h : StaysWhole st calls) :
    st.Whole := by
  cases calls with
  | nil => exact h
  | cons call rest => exact h.1

/- No call chains two channels that are connected already. -/
def Unconnected : List (Nat × Nat) → List ChainCall → Prop
| _, [] => True
| pairs, .post _ _ :: rest => Unconnected pairs rest
| pairs, .chain status id1 id2 :: rest =>
    if status.aside then Unconnected pairs rest
    else
      ¬Connected pairs id1 id2 ∧
        Unconnected ((id1, id2) :: pairs) rest

/-
  Chaining these slots appends a posted chain to an unposted
  chain of several slots: that of the first slot if it is in
  one, and else that of the second.
-/
def SwitchBoard.Strands (board : SwitchBoard) (a b : Nat) : Prop :=
  board.first a ≠ none ∧
      (board.channels a).isPosted = false ∧
      (board.channels b).isPosted = true ∨
    board.first a = none ∧ board.first b ≠ none ∧
      (board.channels b).isPosted = false ∧
      (board.channels a).isPosted = true

instance (board : SwitchBoard) (a b : Nat) :
    Decidable (board.Strands a b) :=
  inferInstanceAs (Decidable (_ ∨ _))

def ChainCall.Strands : ChainCall → SwitchBoard → Prop
| .post _ _, _ => False
| .chain status id1 id2, board =>
    status.aside = false ∧
      board.Strands (board.index id1) (board.index id2)

instance
    (call : ChainCall)
    (board : SwitchBoard) :
    Decidable (call.Strands board) :=
  match call with
  | .post _ _ => inferInstanceAs (Decidable False)
  | .chain _ _ _ => inferInstanceAs (Decidable (_ ∧ _))

/- No call of the sequence does so. -/
def NeverStrands : ChainState → List ChainCall → Prop
| _, [] => True
| st, call :: rest =>
    ¬call.Strands st.board ∧
      match call.run st with
      | .ret st' => NeverStrands st' rest
      | .abort => True
      | .fault => True

instance decidableNeverStrands :
    (st : ChainState) → (calls : List ChainCall) →
      Decidable (NeverStrands st calls)
| _, [] => isTrue trivial
| st, call :: rest =>
    match h : call.run st with
    | .ret st' =>
        have := decidableNeverStrands st' rest
        decidable_of_iff
          (¬call.Strands st.board ∧ NeverStrands st' rest)
          (by simp only [NeverStrands, h])
    | .abort =>
        decidable_of_iff (¬call.Strands st.board)
          (by simp only [NeverStrands, h, and_true])
    | .fault =>
        decidable_of_iff (¬call.Strands st.board)
          (by simp only [NeverStrands, h, and_true])

------------------------------------------------------------
-- The Invariant
------------------------------------------------------------

/-
  The chains of the board are the classes of the pairs.
  `known` are the channels the calls may name.
-/
structure ChainShape
    (known : Nat → Prop)
    (st : ChainState) : Prop where
  size : 0 < st.board.size
  chained : st.board.Chained
  ids : ∀ i, (st.board.channels i).id ≠ 0 →
    known (st.board.channels i).id ∧
      st.board.index (st.board.channels i).id = i
  linked : ∀ i f, st.board.first i = some f →
    (st.board.channels i).id ≠ 0
  classes : ∀ a b, Connected st.pairs a b ↔
    a = b ∨
      (st.board.Holds a ∧ st.board.Holds b ∧
        Chains.SameBlock st.board.first (st.board.index a)
          (st.board.index b))
  posts : ∀ p ∈ st.posts, st.board.Holds p

/- A slot is posted if and only if one of its chain was. -/
def FlagsAgree (st : ChainState) : Prop :=
  ∀ i, (st.board.channels i).isPosted = true ↔
    ∃ p ∈ st.posts,
      Chains.SameBlock st.board.first i (st.board.index p)

/- With the flags right, chains are released as a whole. -/
theorem whole_of_flagsAgree
    {known : Nat → Prop}
    {st : ChainState}
    (hShape : ChainShape known st)
    (hFlags : FlagsAgree st) :
    st.Whole := by
  intro id hPos
  unfold channelIsPosted
  by_cases hId :
      (st.board.channels (st.board.index id)).id = id
  · have hHolds : st.board.Holds id := ⟨by omega, hId⟩
    simp only [hId, ne_eq, not_true_eq_false, if_false]
    rw [hFlags]
    constructor
    · intro h
      rcases h with ⟨p, hp, hSame⟩
      exact ⟨p, hp, (hShape.classes id p).mpr
        (Or.inr ⟨hHolds, hShape.posts p hp, hSame⟩)⟩
    · intro h
      rcases h with ⟨p, hp, hConnected⟩
      rcases (hShape.classes id p).mp hConnected with
        rfl | ⟨_, _, hSame⟩
      · exact ⟨id, hp, Or.inl rfl⟩
      · exact ⟨p, hp, hSame⟩
  · simp only [ne_eq, hId, not_false_eq_true, if_true,
      Bool.false_eq_true, false_iff]
    intro h
    rcases h with ⟨p, hp, hConnected⟩
    rcases (hShape.classes id p).mp hConnected with
      rfl | ⟨hHolds, _, _⟩
    · exact hId (hShape.posts id hp).2
    · exact hId hHolds.2

theorem connected_nil_iff
    {a b : Nat} :
    Connected [] a b ↔ a = b :=
  Chains.eqvGen_empty_iff (fun _ _ h => nomatch h)

theorem freshState_shape
    (known : Nat → Prop)
    {size gs : Nat}
    (hSize : 0 < (postwaitInit size gs).size) :
    ChainShape known (freshState size gs) := by
  constructor
  · exact hSize
  · constructor
    · exact Chains.partitioned_of_none (fun _ => rfl)
        (fun _ => rfl)
    · intro i f hFirst
      cases hFirst
  · intro i hId
    exact absurd rfl hId
  · intro i f hFirst
    cases hFirst
  · intro a b
    change Connected [] a b ↔ _
    rw [connected_nil_iff]
    constructor
    · exact Or.inl
    · intro h
      rcases h with hEq | ⟨⟨hNe, hId⟩, _, _⟩
      · exact hEq
      · exact absurd hId.symm hNe
  · intro p hp
    cases hp

theorem freshState_flags
    (size gs : Nat) :
    FlagsAgree (freshState size gs) := by
  intro i
  constructor
  · intro hPosted
    cases hPosted
  · intro h
    rcases h with ⟨p, hp, -⟩
    cases hp

------------------------------------------------------------
-- Allocation Changes No Class
------------------------------------------------------------

section Allocation

variable {known : Nat → Prop}
variable {st : ChainState}

/- An unallocated slot is in no chain. -/
theorem ChainShape.first_of_blank
    (hShape : ChainShape known st)
    {i : Nat}
    (hBlank : (st.board.channels i).id = 0) :
    st.board.first i = none := by
  cases hFirst : st.board.first i with
  | none => rfl
  | some f => exact absurd hBlank (hShape.linked i f hFirst)

/- Known channels find their slots free or their own. -/
theorem ChainShape.not_taken
    (hShape : ChainShape known st)
    (hApart : ∀ a b, known a → known b →
      st.board.index a = st.board.index b → a = b)
    {id : Nat}
    (hKnown : known id) :
    ¬st.board.Taken id := by
  intro h
  rcases h with ⟨hNe, hOther⟩
  rcases hShape.ids _ hNe with ⟨hOld, hIndex⟩
  exact hOther (hApart _ _ hOld hKnown hIndex)

/- A slot that was blank is in a class by itself. -/
theorem ChainShape.connected_of_same
    (hShape : ChainShape known st)
    {id : Nat}
    (hPos : id ≠ 0)
    (hFree : ¬st.board.Taken id)
    {a b : Nat}
    (ha : st.board.Holds a ∨ a = id)
    (hb : st.board.Holds b ∨ b = id)
    (hSame : Chains.SameBlock st.board.first
      (st.board.index a) (st.board.index b)) :
    Connected st.pairs a b := by
  rw [hShape.classes]
  by_cases hHeld : st.board.Holds id
  · right
    refine ⟨?_, ?_, hSame⟩
    · rcases ha with ha | rfl
      · exact ha
      · exact hHeld
    · rcases hb with hb | rfl
      · exact hb
      · exact hHeld
  · have hBlank :
        (st.board.channels (st.board.index id)).id = 0 := by
      by_contra hNe
      exact hFree ⟨hNe, fun hEq => hHeld ⟨hPos, hEq⟩⟩
    have hNone := hShape.first_of_blank hBlank
    have hAlone : ∀ c, st.board.Holds c →
        ¬Chains.SameBlock st.board.first
          (st.board.index c) (st.board.index id) := by
      intro c hc h
      rcases h with hEq | ⟨f, _, hF⟩
      · have hId := hc.2
        rw [hEq, hBlank] at hId
        exact hc.1 hId.symm
      · rw [hNone] at hF
        cases hF
    rcases ha with ha | rfl
    · rcases hb with hb | rfl
      · exact Or.inr ⟨ha, hb, hSame⟩
      · exact absurd hSame (hAlone a ha)
    · rcases hb with hb | rfl
      · exact absurd hSame.symm (hAlone b hb)
      · exact Or.inl rfl

theorem ChainShape.allocate
    (hShape : ChainShape known st)
    {id : Nat}
    (hKnown : known id)
    (hPos : id ≠ 0)
    (hFree : ¬st.board.Taken id) :
    ChainShape known
      { st with board := st.board.allocate id } := by
  have hHolds := holds_allocate_iff hPos hFree
  constructor
  · change 0 < (st.board.allocate id).size
    rw [st.board.allocate_size]
    exact hShape.size
  · exact hShape.chained.allocate id
  · intro i hNe
    change ((st.board.allocate id).channels i).id ≠ 0 at hNe
    change known ((st.board.allocate id).channels i).id ∧
      (st.board.allocate id).index _ = i
    rw [st.board.allocate_index]
    by_cases hi : i = st.board.index id
    · subst hi
      rw [st.board.allocate_id_self hFree]
      exact ⟨hKnown, rfl⟩
    · rw [st.board.allocate_of_ne hi] at hNe ⊢
      exact hShape.ids i hNe
  · intro i f hFirst
    change (st.board.allocate id).first i = some f at hFirst
    change ((st.board.allocate id).channels i).id ≠ 0
    rw [st.board.allocate_first] at hFirst
    by_cases hi : i = st.board.index id
    · subst hi
      rw [st.board.allocate_id_self hFree]
      exact hPos
    · rw [st.board.allocate_of_ne hi]
      exact hShape.linked i f hFirst
  · intro a b
    simp only [st.board.allocate_first,
      st.board.allocate_index, hHolds]
    constructor
    · intro hConnected
      rcases (hShape.classes a b).mp hConnected with
        hEq | ⟨ha, hb, hSame⟩
      · exact Or.inl hEq
      · exact Or.inr ⟨Or.inl ha, Or.inl hb, hSame⟩
    · intro h
      rcases h with rfl | ⟨ha, hb, hSame⟩
      · exact .refl a
      · exact hShape.connected_of_same hPos hFree ha hb hSame
  · intro p hp
    exact (hHolds p).mpr (Or.inl (hShape.posts p hp))

theorem FlagsAgree.allocate
    (hFlags : FlagsAgree st)
    (id : Nat) :
    FlagsAgree { st with board := st.board.allocate id } := by
  intro i
  simp only [st.board.allocate_isPosted,
    st.board.allocate_first, st.board.allocate_index]
  exact hFlags i

end Allocation

------------------------------------------------------------
-- The Two Calls
------------------------------------------------------------

section Calls

variable {known : Nat → Prop}
variable {st : ChainState}
variable {board' : SwitchBoard}

/- A change of the flags alone. -/
theorem ChainShape.post
    (hShape : ChainShape known st)
    {id : Nat}
    (hHolds : st.board.Holds id)
    (hReleased : Released st.board board' id) :
    ChainShape known
      { st with
        board := board'
        posts := id :: st.posts } := by
  have hIndex := index_congr hReleased.size
  have hIds : ∀ i, (board'.channels i).id =
      (st.board.channels i).id := by
    intro i
    by_cases hi : i = st.board.index id
    · rw [hi, hReleased.id_self, hHolds.2]
    · exact hReleased.id_other i hi
  have hSame := holds_congr hReleased.size hIds
  constructor
  · exact hReleased.size ▸ hShape.size
  · exact hReleased.chained hShape.chained
  · intro i
    simp only [hIds, hIndex]
    exact hShape.ids i
  · intro i f
    simp only [hIds, hReleased.first]
    exact hShape.linked i f
  · intro a b
    simp only [hSame, hIndex, hReleased.first]
    exact hShape.classes a b
  · intro p hp
    rw [hSame]
    rcases List.mem_cons.mp hp with rfl | hp
    · exact hHolds
    · exact hShape.posts p hp

/- The chain of a posted channel is posted. -/
theorem FlagsAgree.post
    (hFlags : FlagsAgree st)
    {id : Nat}
    (hReleased : Released st.board board' id) :
    FlagsAgree
      { st with
        board := board'
        posts := id :: st.posts } := by
  have hIndex := index_congr hReleased.size
  intro i
  simp only [hReleased.posted i, hFlags i, hIndex,
    hReleased.first]
  constructor
  · intro h
    rcases h with ⟨p, hp, hSame⟩ | hSame
    · exact ⟨p, List.mem_cons_of_mem id hp, hSame⟩
    · exact ⟨id, List.mem_cons_self, hSame.symm⟩
  · intro h
    rcases h with ⟨p, hp, hSame⟩
    rcases List.mem_cons.mp hp with rfl | hp
    · exact Or.inr hSame.symm
    · exact Or.inl ⟨p, hp, hSame⟩

/- The class of an allocated channel. -/
theorem ChainShape.connected_iff
    (hShape : ChainShape known st)
    {id : Nat}
    (hHolds : st.board.Holds id)
    {b : List Nat}
    (hb : Chains.Cell st.board.first st.board.next b)
    (hIn : st.board.index id ∈ b)
    (u : Nat) :
    Connected st.pairs id u ↔
      st.board.Holds u ∧ st.board.index u ∈ b := by
  rw [hShape.classes, hb.mem_iff hIn]
  constructor
  · intro h
    rcases h with rfl | ⟨_, hu, hSame⟩
    · exact ⟨hHolds, Or.inl rfl⟩
    · exact ⟨hu, hSame⟩
  · intro h
    rcases h with ⟨hu, hSame⟩
    exact Or.inr ⟨hHolds, hu, hSame⟩

/- The board is in order, and more. -/
theorem ChainShape.orderly
    (hShape : ChainShape known st) :
    st.board.Orderly :=
  ⟨hShape.size, hShape.chained.listed, hShape.linked⟩

/- The classes after one more pair. -/
theorem connected_cons_iff
    {pairs : List (Nat × Nat)}
    {id1 id2 : Nat}
    (u v : Nat) :
    Connected ((id1, id2) :: pairs) u v ↔
      Connected pairs u v ∨
        (Connected pairs id1 u ∧ Connected pairs id2 v) ∨
        (Connected pairs id2 u ∧ Connected pairs id1 v) := by
  have hPairs : (fun a b => (a, b) ∈ (id1, id2) :: pairs) =
      fun a b => (a = id1 ∧ b = id2) ∨ (a, b) ∈ pairs := by
    funext a b
    simp
  have hSymm : ∀ a b, Relation.EqvGen
      (fun a b => (a, b) ∈ pairs) a b ↔
        Relation.EqvGen (fun a b => (a, b) ∈ pairs) b a :=
    fun a b => ⟨.symm a b, .symm b a⟩
  unfold Connected
  rw [hPairs, Chains.eqvGen_insert_iff, hSymm u id1,
    hSymm u id2]

/- The two blocks are those of the chained channels. -/
structure Ends
    (board : SwitchBoard)
    (id1 id2 : Nat)
    (l m : List Nat) : Prop where
  left : Chains.Block board.first board.next l
  right : Chains.Block board.first board.next m
  apart : ∀ i ∈ l, i ∉ m
  holds1 : board.Holds id1
  holds2 : board.Holds id2
  ends : (board.index id1 ∈ l ∧ board.index id2 ∈ m) ∨
    (board.index id2 ∈ l ∧ board.index id1 ∈ m)

variable {id1 id2 : Nat}
variable {l m : List Nat}
variable {posted : Bool}

/- The channels that one more pair connects. -/
theorem Ends.joins_iff
    (hEnds : Ends st.board id1 id2 l m)
    (hShape : ChainShape known st)
    (a b : Nat) :
    (Connected st.pairs id1 a ∧ Connected st.pairs id2 b) ∨
        (Connected st.pairs id2 a ∧
          Connected st.pairs id1 b) ↔
      st.board.Holds a ∧ st.board.Holds b ∧
        (st.board.index a ∈ l ∧ st.board.index b ∈ m ∨
          st.board.index a ∈ m ∧ st.board.index b ∈ l) := by
  rcases hEnds.ends with ⟨h1, h2⟩ | ⟨h2, h1⟩
  · simp only [
      hShape.connected_iff hEnds.holds1 hEnds.left.cell h1,
      hShape.connected_iff hEnds.holds2 hEnds.right.cell h2]
    tauto
  · simp only [
      hShape.connected_iff hEnds.holds1 hEnds.right.cell h1,
      hShape.connected_iff hEnds.holds2 hEnds.left.cell h2]
    tauto

/- All slots of both chains are allocated. -/
theorem Ends.allocated
    (hEnds : Ends st.board id1 id2 l m)
    (hShape : ChainShape known st)
    (i : Nat)
    (hi : i ∈ l ∨ i ∈ m) :
    (st.board.channels i).id ≠ 0 ∧ i < st.board.size := by
  rcases hEnds.ends with ⟨h1, h2⟩ | ⟨h2, h1⟩
  · rcases hi with hi | hi
    · exact hShape.orderly.allocated hEnds.holds1 hEnds.left.cell h1 hi
    · exact hShape.orderly.allocated hEnds.holds2
        hEnds.right.cell h2 hi
  · rcases hi with hi | hi
    · exact hShape.orderly.allocated hEnds.holds2 hEnds.left.cell h2 hi
    · exact hShape.orderly.allocated hEnds.holds1
        hEnds.right.cell h1 hi

/- Two classes become one. -/
theorem ChainShape.append
    (hShape : ChainShape known st)
    (hEnds : Ends st.board id1 id2 l m)
    (hAppended : Appended st.board board' l m posted) :
    ChainShape known
      { st with
        board := board'
        pairs := (id1, id2) :: st.pairs } := by
  rcases hAppended.joined with ⟨f, hJoined⟩
  have hSame := Chains.sameBlock_join_iff
    hShape.chained.listed.listed hEnds.left.cell
    hEnds.right.cell hEnds.apart hJoined
  have hIndex := index_congr hAppended.size
  have hHolds := holds_congr hAppended.size hAppended.ids
  have hAllocated := hEnds.allocated hShape
  constructor
  · exact hAppended.size ▸ hShape.size
  · exact hAppended.chained hShape.chained hEnds.left.cell
      hEnds.right.cell hEnds.apart
      (fun i hi => (hAllocated i hi).2)
  · intro i
    simp only [hAppended.ids, hIndex]
    exact hShape.ids i
  · intro i f' hFirst
    change board'.first i = some f' at hFirst
    change (board'.channels i).id ≠ 0
    rw [hJoined.first_eq] at hFirst
    rw [hAppended.ids]
    by_cases hi : i ∈ l ∨ i ∈ m
    · exact (hAllocated i hi).1
    · rw [if_neg hi] at hFirst
      exact hShape.linked i f' hFirst
  · intro a b
    simp only [hHolds, hIndex]
    rw [connected_cons_iff, hSame, hShape.classes a b,
      hEnds.joins_iff hShape a b]
    have hLeft := hEnds.left.cell.sameBlock
      (st.board.index a) (st.board.index b)
    have hRight := hEnds.right.cell.sameBlock
      (st.board.index a) (st.board.index b)
    constructor
    · rintro ((hEq | ⟨ha, hb, hOld⟩) |
        ⟨ha, hb, ⟨hal, hbm⟩ | ⟨ham, hbl⟩⟩)
      · exact Or.inl hEq
      · exact Or.inr ⟨ha, hb, Or.inl hOld⟩
      · exact Or.inr
          ⟨ha, hb, Or.inr ⟨Or.inl hal, Or.inr hbm⟩⟩
      · exact Or.inr
          ⟨ha, hb, Or.inr ⟨Or.inr ham, Or.inl hbl⟩⟩
    · rintro (hEq | ⟨ha, hb,
        hOld | ⟨hal | ham, hbl | hbm⟩⟩)
      · exact Or.inl (Or.inl hEq)
      · exact Or.inl (Or.inr ⟨ha, hb, hOld⟩)
      · exact Or.inl (Or.inr ⟨ha, hb, hLeft hal hbl⟩)
      · exact Or.inr ⟨ha, hb, Or.inl ⟨hal, hbm⟩⟩
      · exact Or.inr ⟨ha, hb, Or.inr ⟨ham, hbl⟩⟩
      · exact Or.inl (Or.inr ⟨ha, hb, hRight ham hbm⟩)
  · intro p hp
    rw [hHolds]
    exact hShape.posts p hp

/- The slots of a chain have the same flag. -/
theorem FlagsAgree.uniform
    (hFlags : FlagsAgree st)
    {x i : Nat}
    (hSame : Chains.SameBlock st.board.first x i) :
    (st.board.channels i).isPosted =
      (st.board.channels x).isPosted := by
  apply Bool.eq_iff_iff.mpr
  rw [hFlags i, hFlags x]
  constructor
  · intro hCase
    rcases hCase with ⟨p, hp, h⟩
    exact ⟨p, hp, hSame.trans h⟩
  · intro hCase
    rcases hCase with ⟨p, hp, h⟩
    exact ⟨p, hp, hSame.symm.trans h⟩

/- One of two classes was posted. -/
theorem FlagsAgree.either_posted
    (hFlags : FlagsAgree st)
    (hl : Chains.Cell st.board.first st.board.next l)
    (hm : Chains.Cell st.board.first st.board.next m)
    {x y : Nat}
    (hx : x ∈ l)
    (hy : y ∈ m) :
    ((st.board.channels x).isPosted ||
        (st.board.channels y).isPosted) = true ↔
      ∃ p ∈ st.posts, st.board.index p ∈ l ∨
        st.board.index p ∈ m := by
  rw [Bool.or_eq_true, hFlags x, hFlags y]
  simp only [hl.mem_iff hx, hm.mem_iff hy]
  constructor
  · intro hCase
    rcases hCase with ⟨p, hp, h⟩ | ⟨p, hp, h⟩
    · exact ⟨p, hp, Or.inl h⟩
    · exact ⟨p, hp, Or.inr h⟩
  · intro hCase
    rcases hCase with ⟨p, hp, h | h⟩
    · exact Or.inl ⟨p, hp, h⟩
    · exact Or.inr ⟨p, hp, h⟩

/-
  The flags are right after the call if the chain that is
  extended has one channel, or is posted, or the other one
  is not.
-/
theorem FlagsAgree.append
    (hFlags : FlagsAgree st)
    (hAll : Chains.Listed st.board.first st.board.next)
    {x y : Nat}
    (hl : Chains.Cell st.board.first st.board.next l)
    (hm : Chains.Cell st.board.first st.board.next m)
    (hApart : ∀ i ∈ l, i ∉ m)
    (hx : x ∈ l)
    (hy : y ∈ m)
    (hAppended : Appended st.board board' l m
      ((st.board.channels x).isPosted ||
        (st.board.channels y).isPosted))
    (hOk : st.board.first x = none ∨
      (st.board.channels x).isPosted = true ∨
      (st.board.channels y).isPosted = false)
    (pairs : List (Nat × Nat)) :
    FlagsAgree
      { st with board := board', pairs := pairs } := by
  rcases hAppended.joined with ⟨f, hJoined⟩
  have hSame := Chains.sameBlock_join_iff hAll hl hm hApart
    hJoined
  have hIndex := index_congr hAppended.size
  have hEither := hFlags.either_posted hl hm hx hy
  -- what the slots of the two chains should show
  have hJoint : ∀ i, i ∈ l ∨ i ∈ m →
      ((∃ p ∈ st.posts, Chains.SameBlock board'.first i
          (st.board.index p)) ↔
        ((st.board.channels x).isPosted ||
          (st.board.channels y).isPosted) = true) := by
    intro i hi
    rw [hEither]
    have hBlock := hJoined.cell hAll hl hm hApart
    have hi' : i ∈ l ++ m := List.mem_append.mpr hi
    simp only [← hBlock.mem_iff hi', List.mem_append]
  intro i
  change (board'.channels i).isPosted = true ↔
    ∃ p ∈ st.posts,
      Chains.SameBlock board'.first i (board'.index p)
  rw [hIndex]
  by_cases hIn : i ∈ l ∨ i ∈ m
  · rw [hJoint i hIn]
    by_cases hMarked : i ∈ m ∨ l.getLast? = some i
    · rw [hAppended.posted_new i hMarked]
    · -- the other slots of the first chain keep their flags
      have hil : i ∈ l := by tauto
      rw [hAppended.posted_old i (by tauto) (by tauto)]
      rw [hFlags.uniform ((hl.mem_iff hx i).mp hil)]
      rcases hOk with hNone | hPosted | hNot
      · exfalso
        have hSingle := hl.eq_singleton hx hNone
        rw [hSingle, List.mem_singleton] at hil
        apply hMarked
        rw [hSingle, hil]
        exact Or.inr rfl
      · rw [hPosted, Bool.true_or]
      · rw [hNot, Bool.or_false]
  · rw [hAppended.posted_old i (by tauto) (by
      intro hLast
      exact hIn (Or.inl (List.mem_of_getLast? hLast))),
      hFlags i]
    simp only [hSame, hIn, false_and, or_false]

/-
  Otherwise the first channel of the extended chain is in a
  class with a posted one, and is not posted itself.
-/
theorem not_whole_of_append
    (hShape : ChainShape known st)
    (hFlags : FlagsAgree st)
    (hEnds : Ends st.board id1 id2 l m)
    (hAppended : Appended st.board board' l m posted)
    {x y : Nat}
    (hx : x ∈ l)
    (hy : y ∈ m)
    (hChain : st.board.first x ≠ none)
    (hNot : (st.board.channels x).isPosted = false)
    (hPosted : (st.board.channels y).isPosted = true) :
    ¬ChainState.Whole
      { st with
        board := board'
        pairs := (id1, id2) :: st.pairs } := by
  have hShape' := hShape.append hEnds hAppended
  rcases hAppended.joined with ⟨f, hJoined⟩
  have hHead := hJoined.head
  have hf : f ∈ l := List.mem_of_mem_head? hHead
  -- a chain of several channels does not end with its first
  have hNotLast : l.getLast? ≠ some f := by
    intro hLast
    rcases hEnds.left with
      ⟨i, hNone, -⟩ | ⟨f', g, rest, hNodup, -, -⟩
    · rw [List.mem_singleton] at hx
      exact hChain (hx ▸ hNone)
    · rw [List.head?_cons, Option.some.injEq] at hHead
      rw [hHead, List.getLast?_cons_cons] at hLast
      rw [hHead] at hNodup
      exact (List.nodup_cons.mp hNodup).1
        (List.mem_of_getLast? hLast)
  have hFlag : (board'.channels f).isPosted = false := by
    rw [hAppended.posted_old f (hEnds.apart f hf) hNotLast,
      hFlags.uniform (hEnds.left.cell.sameBlock x f hx hf), hNot]
  have hFirst : board'.first f = some f := by
    rw [hJoined.first_eq, if_pos (Or.inl hf)]
  have hNe : (board'.channels f).id ≠ 0 :=
    hShape'.linked f f hFirst
  have hIndex : board'.index (board'.channels f).id = f :=
    (hShape'.ids f hNe).2
  rcases (hFlags y).mp hPosted with ⟨p, hp, hSame⟩
  have hpm : st.board.index p ∈ m :=
    (hEnds.right.cell.mem_iff hy _).mpr hSame
  have hConnected : Connected ((id1, id2) :: st.pairs)
      (board'.channels f).id p := by
    apply (hShape'.classes _ p).mpr
    refine Or.inr ⟨⟨hNe, ?_⟩, hShape'.posts p hp, ?_⟩
    · change (board'.channels
        (board'.index (board'.channels f).id)).id = _
      rw [hIndex]
    · change Chains.SameBlock board'.first
        (board'.index (board'.channels f).id) (board'.index p)
      rw [hIndex]
      right
      refine ⟨f, hFirst, ?_⟩
      rw [index_congr hAppended.size, hJoined.first_eq,
        if_pos (Or.inr hpm)]
  intro hWhole
  have hIs := (hWhole (board'.channels f).id
    (by omega)).mpr ⟨p, hp, hConnected⟩
  unfold channelIsPosted at hIs
  simp only [hIndex, hFlag, ne_eq, not_true_eq_false,
    if_false, Bool.false_eq_true] at hIs

end Calls

------------------------------------------------------------
-- Every Sequence
------------------------------------------------------------

section Sequences

variable {known : Nat → Prop}
variable {st : ChainState}

/- A posted slot is allocated. -/
theorem FlagsAgree.allocated
    (hFlags : FlagsAgree st)
    (hShape : ChainShape known st)
    {i : Nat}
    (hPosted : (st.board.channels i).isPosted = true) :
    (st.board.channels i).id ≠ 0 := by
  rcases (hFlags i).mp hPosted with ⟨p, hp, rfl | ⟨f, hF, _⟩⟩
  · rw [(hShape.posts p hp).2]
    exact (hShape.posts p hp).1
  · exact hShape.linked i f hF

/- A post keeps the classes and releases one of them. -/
theorem run_post
    (hShape : ChainShape known st)
    (hFlags : FlagsAgree st)
    (s : Sender)
    {id : Nat}
    (hKnown : known id)
    (hPos : id ≠ 0)
    (hFree : ¬st.board.Taken id) :
    ∃ st', (ChainCall.post s id).run st = .ret st' ∧
      ChainShape known st' ∧ FlagsAgree st' ∧
      st'.pairs = st.pairs ∧
      st'.board.size = st.board.size := by
  rcases channelPost_returns s.status s.pprIndex s.mem hPos
      hShape.chained.listed hShape.size s.localWell s.writeWell with
    ⟨board', localCh', writeMap', hPost⟩
  simp only [ChainCall.run, hPost, Outcome.ret_bind]
  rcases channelPost_cases hShape.chained.listed hShape.size
      hPost with
    ⟨hIgnored, hSame⟩ | ⟨hPosts, hReleased⟩
  · have hEq : board' = st.board := by
      rcases hSame with hEq | ⟨_, hPosted, hEq⟩
      · exact hEq
      · have hNe := hFlags.allocated hShape hPosted
        have hId : (st.board.channels
            (st.board.index id)).id = id := by
          by_contra hOther
          exact hFree ⟨hNe, hOther⟩
        rw [hEq]
        exact st.board.set_id_self hId
    rw [if_neg hIgnored, hEq]
    exact ⟨_, rfl, hShape, hFlags, rfl, rfl⟩
  · rw [if_pos hPosts]
    have hShape' := hShape.allocate hKnown hPos hFree
    have hFlags' := hFlags.allocate id
    have hReleased' := hReleased.allocate
    have hHolds : (st.board.allocate id).Holds id :=
      (holds_allocate_iff hPos hFree id).mpr (Or.inr rfl)
    exact ⟨_, rfl, hShape'.post hHolds hReleased',
      hFlags'.post hReleased', rfl, hReleased.size⟩

/- One of two flags decides for both. -/
theorem posted_or_not
    {p q : Bool}
    (h : ¬(p = false ∧ q = true)) :
    p = true ∨ q = false := by
  cases p with
  | true => exact Or.inl rfl
  | false =>
      cases q with
      | true => exact absurd ⟨rfl, rfl⟩ h
      | false => exact Or.inr rfl

/-
  Chaining two allocated channels joins their classes. It
  leaves the flags right exactly if it does not strand a
  part of the new class.
-/
theorem chainSlots_spec
    (hShape : ChainShape known st)
    (hFlags : FlagsAgree st)
    {id1 id2 : Nat}
    (hHolds1 : st.board.Holds id1)
    (hHolds2 : st.board.Holds id2)
    (hNew : ¬Connected st.pairs id1 id2) :
    ∃ board',
      chainSlots st.board (st.board.index id1)
        (st.board.index id2) = some board' ∧
      board'.size = st.board.size ∧
      ChainShape known
        { st with
          board := board'
          pairs := (id1, id2) :: st.pairs } ∧
      (¬st.board.Strands (st.board.index id1)
          (st.board.index id2) →
        FlagsAgree
          { st with
            board := board'
            pairs := (id1, id2) :: st.pairs }) ∧
      (st.board.Strands (st.board.index id1)
          (st.board.index id2) →
        ¬ChainState.Whole
          { st with
            board := board'
            pairs := (id1, id2) :: st.pairs }) := by
  have hTwo : ¬Chains.SameBlock st.board.first
      (st.board.index id1) (st.board.index id2) := by
    intro hSame
    apply hNew
    exact (hShape.classes id1 id2).mpr
      (Or.inr ⟨hHolds1, hHolds2, hSame⟩)
  have hAll := hShape.chained.listed.listed
  have hBlocks := hShape.chained.partitioned
  rcases chainSlots_appended hShape.chained.listed hShape.size
      hTwo with
    ⟨board', l, m, hCall, hl, hm, hDisjoint, hAppended,
      ⟨h1, h2, hSide⟩ | ⟨h2, h1, hNone, hSome⟩⟩
  · have hEnds : Ends st.board id1 id2 l m :=
      ⟨hBlocks.block hl, hBlocks.block hm, hDisjoint, hHolds1,
        hHolds2, Or.inl ⟨h1, h2⟩⟩
    refine ⟨board', hCall, hAppended.size,
      hShape.append hEnds hAppended, ?_, ?_⟩
    · intro hKeeps
      refine hFlags.append hAll hl hm hDisjoint h1 h2
        hAppended ?_ _
      by_cases hFirst :
          st.board.first (st.board.index id1) = none
      · exact Or.inl hFirst
      · right
        apply posted_or_not
        intro h
        rcases h with ⟨hNot, hYes⟩
        exact hKeeps (Or.inl ⟨hFirst, hNot, hYes⟩)
    · intro h
      rcases h with ⟨hFirst, hNot, hYes⟩ | ⟨hNone, hSome, _, _⟩
      · exact not_whole_of_append hShape hFlags hEnds
          hAppended h1 h2 hFirst hNot hYes
      · rcases hSide with hSome1 | hNone2
        · exact absurd hNone hSome1
        · exact absurd hNone2 hSome
  · have hEnds : Ends st.board id1 id2 l m :=
      ⟨hBlocks.block hl, hBlocks.block hm, hDisjoint, hHolds1,
        hHolds2, Or.inr ⟨h2, h1⟩⟩
    refine ⟨board', hCall, hAppended.size,
      hShape.append hEnds hAppended, ?_, ?_⟩
    · intro hKeeps
      rw [Bool.or_comm] at hAppended
      refine hFlags.append hAll hl hm hDisjoint h2 h1
        hAppended (Or.inr (posted_or_not ?_)) _
      intro h
      rcases h with ⟨hNot, hYes⟩
      exact hKeeps (Or.inr ⟨hNone, hSome, hNot, hYes⟩)
    · intro h
      rcases h with ⟨hFirst, _, _⟩ | ⟨_, _, hNot, hYes⟩
      · exact absurd hNone hFirst
      · exact not_whole_of_append hShape hFlags hEnds
          hAppended h2 h1 hSome hNot hYes

/- Allocation first, and then the two classes are joined. -/
theorem run_chain
    (hShape : ChainShape known st)
    (hFlags : FlagsAgree st)
    (hApart : ∀ a b, known a → known b →
      st.board.index a = st.board.index b → a = b)
    {status : TaskStatus}
    {id1 id2 : Nat}
    (hStatus : status.aside = false)
    (hKnown1 : known id1)
    (hPos1 : id1 ≠ 0)
    (hKnown2 : known id2)
    (hPos2 : id2 ≠ 0)
    (hNew : ¬Connected st.pairs id1 id2) :
    ∃ st', (ChainCall.chain status id1 id2).run st = .ret st' ∧
      st'.board.size = st.board.size ∧
      st'.pairs = (id1, id2) :: st.pairs ∧
      ChainShape known st' ∧
      (¬(ChainCall.chain status id1 id2).Strands st.board →
        FlagsAgree st') ∧
      ((ChainCall.chain status id1 id2).Strands st.board →
        ¬st'.Whole) := by
  have hFree1 := hShape.not_taken hApart hKnown1
  have hShape1 := hShape.allocate hKnown1 hPos1 hFree1
  have hFree2 : ¬(st.board.allocate id1).Taken id2 := by
    apply hShape1.not_taken _ hKnown2
    simpa only [st.board.allocate_index] using hApart
  have hHolds2 :
      ((st.board.allocate id1).allocate id2).Holds id2 := by
    rw [holds_allocate_iff hPos2 hFree2]
    exact Or.inr rfl
  have hHolds1 :
      ((st.board.allocate id1).allocate id2).Holds id1 := by
    rw [holds_allocate_iff hPos2 hFree2,
      holds_allocate_iff hPos1 hFree1]
    exact Or.inl (Or.inr rfl)
  rcases chainSlots_spec
      (hShape1.allocate hKnown2 hPos2 hFree2)
      ((hFlags.allocate id1).allocate id2) hHolds1 hHolds2
      hNew with
    ⟨board', hCall, hSize, hShape', hGood, hBad⟩
  simp only [SwitchBoard.allocate_index] at hCall
  have hStrands :
      (ChainCall.chain status id1 id2).Strands st.board ↔
        ((st.board.allocate id1).allocate id2).Strands
          (st.board.index id1) (st.board.index id2) := by
    simp only [ChainCall.Strands, SwitchBoard.Strands, hStatus,
      SwitchBoard.allocate_first,
      SwitchBoard.allocate_isPosted, true_and]
  have hRun : (ChainCall.chain status id1 id2).run st =
      .ret { st with
        board := board'
        pairs := (id1, id2) :: st.pairs } := by
    simp only [ChainCall.run]
    rw [channelChain_eq id1 id2 st.board hStatus,
      if_neg (not_or.mpr ⟨hFree1, hFree2⟩), hCall, hStatus]
    rfl
  refine ⟨_, hRun, ?_, rfl, hShape', ?_, ?_⟩
  · simpa only [SwitchBoard.allocate_size] using hSize
  · rw [hStrands]
    simpa only [SwitchBoard.allocate_index] using hGood
  · rw [hStrands]
    simpa only [SwitchBoard.allocate_index] using hBad

/- The channels of the calls are distinct and not zero. -/
structure Proper
    (size : Nat)
    (calls : List ChainCall) : Prop where
  pos : ∀ call ∈ calls, ∀ id ∈ call.ids, 0 < id
  slots : ∀ call ∈ calls, ∀ id ∈ call.ids,
    ∀ call' ∈ calls, ∀ id' ∈ call'.ids,
      id % size = id' % size → id = id'

/- The known channels are those of the calls. -/
def Named (calls : List ChainCall) (id : Nat) : Prop :=
  ∃ call ∈ calls, id ∈ call.ids

theorem staysWhole_iff_from
    {known : Nat → Prop}
    (size : Nat)
    (calls : List ChainCall)
    (st : ChainState)
    (hApart : ∀ a b, known a → known b →
      a % size = b % size → a = b)
    (hPos : ∀ a, known a → a ≠ 0)
    (hKnown : ∀ a, Named calls a → known a)
    (hSize : st.board.size = size)
    (hShape : ChainShape known st)
    (hFlags : FlagsAgree st)
    (hNew : Unconnected st.pairs calls) :
    StaysWhole st calls ↔ NeverStrands st calls := by
  induction calls generalizing st with
  | nil =>
      exact ⟨fun _ => trivial,
        fun _ => whole_of_flagsAgree hShape hFlags⟩
  | cons call rest ih =>
      have hWhole := whole_of_flagsAgree hShape hFlags
      have hHead : ∀ id ∈ call.ids, known id :=
        fun id hId => hKnown id ⟨call, List.mem_cons_self, hId⟩
      have hRest : ∀ a, Named rest a → known a := by
        intro a hCase
        rcases hCase with ⟨c, hc, ha⟩
        exact hKnown a ⟨c, List.mem_cons_of_mem call hc, ha⟩
      have hSlots : ∀ a b, known a → known b →
          st.board.index a = st.board.index b → a = b := by
        unfold SwitchBoard.index
        rw [hSize]
        exact hApart
      unfold StaysWhole NeverStrands
      cases call with
      | post s id =>
          have hId := hHead id (by simp [ChainCall.ids])
          rcases run_post hShape hFlags s hId (hPos id hId)
              (hShape.not_taken hSlots hId) with
            ⟨st', hRun, hShape', hFlags', hPairs, hSize'⟩
          simp only [hRun]
          rw [ih st' hRest (hSize'.trans hSize) hShape' hFlags'
            (hPairs ▸ hNew)]
          exact ⟨fun h => ⟨not_false, h.2⟩,
            fun h => ⟨hWhole, h.2⟩⟩
      | chain status id1 id2 =>
          have hId1 := hHead id1 (by simp [ChainCall.ids])
          have hId2 := hHead id2 (by simp [ChainCall.ids])
          unfold Unconnected at hNew
          cases hStatus : status.aside with
          | true =>
              have hRun :
                  (ChainCall.chain status id1 id2).run st =
                    .ret st := by
                simp [ChainCall.run, channelChain, hStatus]
              rw [if_pos hStatus] at hNew
              simp only [hRun]
              rw [ih st hRest hSize hShape hFlags hNew]
              refine ⟨fun h => ⟨?_, h.2⟩,
                fun h => ⟨hWhole, h.2⟩⟩
              intro hCase
              rcases hCase with ⟨hFalse, -⟩
              rw [hStatus] at hFalse
              cases hFalse
          | false =>
              rw [hStatus, if_neg Bool.false_ne_true] at hNew
              rcases run_chain hShape hFlags hSlots hStatus hId1
                  (hPos id1 hId1) hId2 (hPos id2 hId2)
                  hNew.1 with
                ⟨st', hRun, hSize', hPairs, hShape', hGood,
                  hBad⟩
              simp only [hRun]
              by_cases hStrands : (ChainCall.chain status id1
                  id2).Strands st.board
              · constructor
                · intro hCase
                  rcases hCase with ⟨_, hStays⟩
                  exact absurd hStays.whole (hBad hStrands)
                · intro hCase
                  rcases hCase with ⟨hNot, _⟩
                  exact absurd hStrands hNot
              · rw [ih st' hRest (hSize'.trans hSize) hShape'
                  (hGood hStrands) (hPairs ▸ hNew.2)]
                exact ⟨fun h => ⟨hStrands, h.2⟩,
                  fun h => ⟨hWhole, h.2⟩⟩

/-
  From a fresh board, chains are released as a whole after
  every call exactly if no call appends a posted chain to an
  unposted one of several channels.
-/
theorem staysWhole_iff
    (size gs : Nat)
    (calls : List ChainCall)
    (hSize : 0 < (postwaitInit size gs).size)
    (hProper : Proper (postwaitInit size gs).size calls)
    (hNew : Unconnected [] calls) :
    StaysWhole (freshState size gs) calls ↔
      NeverStrands (freshState size gs) calls := by
  apply staysWhole_iff_from (postwaitInit size gs).size calls
    (freshState size gs) _ _ (fun a ha => ha) rfl
    (freshState_shape (Named calls) hSize)
    (freshState_flags size gs) hNew
  · intro a b h
    rcases h with ⟨call, hCall, ha⟩
    intro hCase
    rcases hCase with ⟨call', hCall', hb⟩
    exact hProper.slots call hCall a ha call' hCall' b hb
  · intro a h
    rcases h with ⟨call, hCall, ha⟩
    have hPos := hProper.pos call hCall a ha
    omega

end Sequences

/- A task that posts without data. -/
def plainSender : Sender where
  status := .spec
  pprIndex := 1
  mem := fun _ => 0
  localCh := { id := 0, data := initEmptyMap }
  writeMap := initEmptyMap
  localWell := keeps_initEmptyMap 1
  writeWell := keeps_initEmptyMap 1

/- A posted chain is extended by an unposted channel. -/
theorem staysWhole_extended :
    StaysWhole (freshState 0 1)
      [.chain .spec 1 2, .post plainSender 1,
        .chain .spec 2 3] := by
  apply (staysWhole_iff 0 1 _ (by decide) ?_ ?_).mpr
  · decide
  · constructor
    · simp [ChainCall.ids]
    · simp [ChainCall.ids, postwaitInit]
  · simp [Unconnected, TaskStatus.aside, connected_cons_iff,
      connected_nil_iff]

/- A chain of two channels, extended by a posted one. -/
def lateCalls : List ChainCall :=
  [.chain .spec 1 2, .post plainSender 3, .chain .spec 2 3]

/- The first of the three is connected, but not posted. -/
theorem lateCalls_not_whole :
    Proper (postwaitInit 0 1).size lateCalls ∧
      Unconnected [] lateCalls ∧
      ¬StaysWhole (freshState 0 1) lateCalls := by
  refine ⟨⟨?_, ?_⟩, ?_, ?_⟩
  · simp [lateCalls, ChainCall.ids]
  · simp [lateCalls, ChainCall.ids, postwaitInit]
  · simp [lateCalls, Unconnected, TaskStatus.aside,
      connected_cons_iff, connected_nil_iff]
  · intro h
    rcases h with ⟨_, _, _, hWhole⟩
    have hPosted := (hWhole 1 (by decide)).mpr
      ⟨3, List.mem_cons_self, by
        change Connected [(2, 3), (1, 2)] 1 3
        simp [connected_cons_iff, connected_nil_iff]⟩
    cases hPosted

end Cbop
