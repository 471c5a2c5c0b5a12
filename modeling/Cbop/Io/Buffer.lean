import Cbop.Ppr.Region
import Mathlib.Data.Nat.Log

/-
  `BOP_printf` of `bop_io.c` and the buffer of the
  understudy.

  A text is the list of bytes the format produces, without
  the final NUL. `vsnprintf` follows C99 and returns the
  length of the text, so that `int` and `size_t` are natural
  numbers here, and `realloc` succeeds. The bytes of a new
  block are not initialised: `junk n` is what a block of `n`
  bytes holds.

  Main declarations:
    * `OutputBuffer`, `IoState`
    * `bopPrintf`, `printBuffer`
    * `undyPrints_iff`
-/

namespace Cbop

------------------------------------------------------------
-- Buffers
------------------------------------------------------------

/- `output_buffer`. -/
structure OutputBuffer where
  alloc : Nat
  used : Nat
  data : Option Bytes
deriving DecidableEq, Repr

/-
  The variables of `bop_io.c`, and what the process has
  printed. The buffers of the tasks are in shared memory.
-/
structure IoState where
  outputBuffers : Option (List OutputBuffer)
  undyBuffer : OutputBuffer
  numBuffers : Nat
  stdout : Bytes
deriving DecidableEq, Repr

/- `init_buffer` on a new block of one byte. -/
def initBuffer : OutputBuffer where
  alloc := 1
  used := 1
  data := some [0]

/- Bytes written from `pos` on. -/
def writeAt
    (data : Bytes)
    (pos : Nat)
    (bytes : Bytes) :
    Bytes :=
  data.take pos ++ bytes ++ data.drop (pos + bytes.length)

/-
  `vsnprintf`: at most `avail` bytes with the final NUL are
  written from `pos` on, and the text's length is returned.
-/
def vsnprintf
    (data : Bytes)
    (pos avail : Nat)
    (text : Bytes) :
    Bytes × Nat :=
  if avail = 0 then
    (data, text.length)
  else
    (writeAt data pos (text.take (avail - 1) ++ [0]),
      text.length)

/- `realloc` to a larger block. -/
def realloc
    (junk : Nat → Nat → UInt8)
    (data : Bytes)
    (newSize : Nat) :
    Bytes :=
  data ++ (List.range (newSize - data.length)).map
    (fun i => junk newSize (data.length + i))

/-
  The loop that doubles `new_size`, with a bound on its
  rounds. `none` is an exhausted bound.
-/
def doubleSize : Nat → Nat → Nat → Option Nat
| 0, _, _ => none
| fuel + 1, newSize, need =>
    if newSize * 2 < need then
      doubleSize fuel (newSize * 2) need
    else
      some (newSize * 2)

/- The end of `BOP_printf`: the new length is noted. -/
def addUsed
    (buf : OutputBuffer)
    (size : Nat) :
    Outcome OutputBuffer :=
  if buf.used + size ≤ buf.alloc then
    pure { buf with used := buf.used + size }
  else
    .fault

variable (junk : Nat → Nat → UInt8)

/- `BOP_printf` from `assert(buf->data != NULL)` on. -/
def printBuffer
    (buf : OutputBuffer)
    (text : Bytes) :
    Outcome OutputBuffer := do
  let data ← Outcome.ofOption buf.data
  let pos := buf.used - 1
  let avail := buf.alloc - buf.used
  if data[pos]? ≠ some 0 then
    .fault
  else
    let (data, size) := vsnprintf data pos avail text
    if size > avail then do
      let newSize ← Outcome.ofOption
        (doubleSize (buf.used + size) buf.alloc
          (buf.used + size))
      let data := realloc junk data newSize
      let avail := newSize - buf.used
      if avail ≥ size then
        let (data, size) := vsnprintf data pos avail text
        addUsed
          { buf with alloc := newSize, data := some data }
          size
      else
        .fault
    else
      addUsed { buf with data := some data } size

/-
  `BOP_printf`. The case `SPEC` has no `break` and runs on
  into `default`, which is `_exit(0)`.
-/
def bopPrintf
    (status : TaskStatus)
    (io : IoState)
    (text : Bytes) :
    Outcome IoState :=
  match status with
  | .seq => pure { io with stdout := io.stdout ++ text }
  | .main => pure { io with stdout := io.stdout ++ text }
  | .undy => do
      let buf ← printBuffer junk io.undyBuffer text
      pure { io with undyBuffer := buf }
  | .spec =>
      if io.outputBuffers = none then .fault else .abort

------------------------------------------------------------
-- Groups
------------------------------------------------------------

/-
  `all_buffs_empty`, which is true when one of the buffers
  is not empty.
-/
def allBuffsEmpty
    (numBuffers : Nat)
    (buffers : List OutputBuffer) :
    Bool :=
  (buffers.take numBuffers).any (fun buf => buf.used ≠ 0)

/- `io_group_init`. -/
def ioGroupInit : Callback IoState :=
  fun v io =>
    let numBuffers := v.groupSize - 1
    if ∀ buffers ∈ io.outputBuffers,
        allBuffsEmpty numBuffers buffers then
      if io.undyBuffer.data = none then
        pure { io with
          outputBuffers :=
            some (List.replicate numBuffers initBuffer)
          undyBuffer := initBuffer
          numBuffers := numBuffers }
      else
        .fault
    else
      .fault

/- `free_all_buffers`. -/
def freeAllBuffers (io : IoState) : IoState :=
  { io with
    undyBuffer := { io.undyBuffer with data := none }
    outputBuffers := none }

/- `printf("%s", data)` prints up to the first NUL. -/
def OutputBuffer.text (buf : OutputBuffer) : Bytes :=
  (buf.data.getD []).takeWhile (fun byte => byte ≠ 0)

/- `io_group_succ`. -/
def ioGroupSucc : Callback IoState :=
  fun _ io =>
    let texts := (io.outputBuffers.getD []).take io.numBuffers
    pure (freeAllBuffers
      { io with stdout :=
          io.stdout ++ (texts.map OutputBuffer.text).flatten })

/- `io_undy_succ`. -/
def ioUndySucc : Callback IoState :=
  fun _ io =>
    pure (freeAllBuffers
      { io with stdout := io.stdout ++ io.undyBuffer.text })

/- `bop_io_port`. -/
def bopIoPort : Port IoState where
  pprGroupInit := some ioGroupInit
  taskGroupSuccFini := some ioGroupSucc
  undySuccFini := some ioUndySucc

------------------------------------------------------------
-- Writing Into a Block
------------------------------------------------------------

theorem length_writeAt
    {data bytes : Bytes}
    {pos : Nat}
    (hFits : pos + bytes.length ≤ data.length) :
    (writeAt data pos bytes).length = data.length := by
  simp only [writeAt, List.length_append, List.length_take,
    List.length_drop]
  omega

/- What lies before the bytes written stays. -/
theorem take_writeAt
    {data bytes : Bytes}
    {pos : Nat}
    (hPos : pos ≤ data.length) :
    (writeAt data pos bytes).take pos = data.take pos := by
  have hLength : (data.take pos).length = pos :=
    List.length_take_of_le hPos
  unfold writeAt
  rw [List.append_assoc, List.take_append_of_le_length
    (by omega), List.take_take, Nat.min_self]

theorem getElem?_writeAt_before
    {data bytes : Bytes}
    {pos i : Nat}
    (hi : i < pos)
    (hIn : i < data.length) :
    (writeAt data pos bytes)[i]? = data[i]? := by
  have hLength : i < (data.take pos).length := by
    rw [List.length_take]
    omega
  unfold writeAt
  rw [List.append_assoc, List.getElem?_append_left hLength,
    List.getElem?_take_of_lt hi]

/- The text a block holds once all of `bytes` is written. -/
theorem take_writeAt_all
    {data : Bytes}
    {pos : Nat}
    (bytes : Bytes)
    (hPos : pos ≤ data.length) :
    (writeAt data pos bytes).take (pos + bytes.length) =
      data.take pos ++ bytes := by
  have hLength :
      (data.take pos ++ bytes).length =
        pos + bytes.length := by
    rw [List.length_append, List.length_take_of_le hPos]
  unfold writeAt
  rw [← hLength]
  exact List.take_left

theorem vsnprintf_length
    {data text : Bytes}
    {pos avail : Nat}
    (hFits : pos + avail ≤ data.length) :
    (vsnprintf data pos avail text).1.length =
      data.length := by
  unfold vsnprintf
  split
  · rfl
  · apply length_writeAt
    rw [List.length_append, List.length_take,
      List.length_singleton]
    omega

theorem vsnprintf_take
    {data text : Bytes}
    {pos avail : Nat}
    (hPos : pos ≤ data.length) :
    (vsnprintf data pos avail text).1.take pos =
      data.take pos := by
  unfold vsnprintf
  split
  · rfl
  · exact take_writeAt hPos

/- A text shorter than the room is stored with its NUL. -/
theorem vsnprintf_stores
    {data : Bytes}
    {pos avail : Nat}
    (text : Bytes)
    (hPos : pos ≤ data.length)
    (hRoom : text.length < avail) :
    (vsnprintf data pos avail text).1.take
        (pos + text.length + 1) =
      data.take pos ++ text ++ [0] := by
  have hAll : text.take (avail - 1) = text :=
    List.take_of_length_le (by omega)
  unfold vsnprintf
  rw [if_neg (by omega), hAll]
  have hTake := take_writeAt_all (text ++ [0]) hPos
  rw [List.length_append, List.length_singleton,
    ← Nat.add_assoc] at hTake
  rw [hTake, List.append_assoc]

/- A text as long as the room loses its last byte. -/
theorem vsnprintf_truncates
    {data text : Bytes}
    {pos avail : Nat}
    (hPos : pos ≤ data.length)
    (hRoom : text.length = avail)
    (hNonempty : 0 < avail) :
    (vsnprintf data pos avail text).1[pos + avail - 1]? =
      some 0 := by
  have hLength : (data.take pos ++
      text.take (avail - 1)).length = pos + avail - 1 := by
    rw [List.length_append, List.length_take_of_le hPos,
      List.length_take_of_le (by omega)]
    omega
  unfold vsnprintf
  rw [if_neg (by omega)]
  unfold writeAt
  simp only [List.append_assoc]
  rw [← List.append_assoc, List.getElem?_append_right
    (by omega), hLength, Nat.sub_self]
  rfl

/- A later write keeps the bytes before its start. -/
theorem vsnprintf_before
    {data : Bytes}
    {pos i : Nat}
    {byte : UInt8}
    (avail : Nat)
    (text : Bytes)
    (hi : i < pos)
    (hByte : data[i]? = some byte) :
    (vsnprintf data pos avail text).1[i]? = some byte := by
  unfold vsnprintf
  split
  · exact hByte
  · rw [getElem?_writeAt_before hi
      (List.getElem?_eq_some_iff.mp hByte).1]
    exact hByte

theorem realloc_before
    {junk : Nat → Nat → UInt8}
    {data : Bytes}
    {newSize i : Nat}
    {byte : UInt8}
    (hByte : data[i]? = some byte) :
    (realloc junk data newSize)[i]? = some byte := by
  unfold realloc
  rw [List.getElem?_append_left
    (List.getElem?_eq_some_iff.mp hByte).1]
  exact hByte

------------------------------------------------------------
-- The Size of a Block
------------------------------------------------------------

/- The loop stops at the first size that is enough. -/
theorem doubleSize_spec
    {fuel newSize need : Nat}
    (hFuel : 0 < fuel)
    (hEnough : need ≤ newSize * 2 ^ fuel) :
    ∃ k, doubleSize fuel newSize need =
        some (newSize * 2 ^ (k + 1)) ∧
      need ≤ newSize * 2 ^ (k + 1) ∧
      (k = 0 ∨ newSize * 2 ^ k < need) := by
  induction fuel generalizing newSize with
  | zero => exact absurd hFuel (Nat.lt_irrefl 0)
  | succ fuel ih =>
      unfold doubleSize
      have hPow : ∀ k, newSize * 2 * 2 ^ k =
          newSize * 2 ^ (k + 1) := by
        intro k
        rw [Nat.pow_succ', Nat.mul_assoc]
      by_cases hSmall : newSize * 2 < need
      · rw [if_pos hSmall]
        have hMore : 0 < fuel := by
          by_contra hZero
          have hNone : fuel = 0 := by omega
          subst hNone
          simp only [Nat.zero_add, Nat.pow_one] at hEnough
          omega
        rcases ih hMore (by rw [hPow]; exact hEnough) with
          ⟨k, hEq, hNeed, hLeast⟩
        rw [hPow] at hEq hNeed
        refine ⟨k + 1, hEq, hNeed, .inr ?_⟩
        rcases hLeast with rfl | hLess
        · simpa using hSmall
        · rw [hPow] at hLess
          exact hLess
      · rw [if_neg hSmall]
        exact ⟨0, by simp, by simp; omega, .inl rfl⟩

/-
  A block of the least power of two that holds `used` bytes
  becomes the least one that holds `size` bytes more.
-/
theorem doubleSize_clog
    {used size : Nat}
    (hUsed : 0 < used)
    (hGrows : 2 ^ Nat.clog 2 used < used + size) :
    doubleSize (used + size) (2 ^ Nat.clog 2 used)
        (used + size) =
      some (2 ^ Nat.clog 2 (used + size)) := by
  have hEnough : used + size ≤
      2 ^ Nat.clog 2 used * 2 ^ (used + size) := by
    have hPow : used + size < 2 ^ (used + size) :=
      Nat.lt_two_pow_self
    have hPos : 1 * 2 ^ (used + size) ≤
        2 ^ Nat.clog 2 used * 2 ^ (used + size) :=
      Nat.mul_le_mul_right _ (Nat.two_pow_pos _)
    omega
  rcases doubleSize_spec (by omega) hEnough with
    ⟨k, hEq, hNeed, hLeast⟩
  rw [← Nat.pow_add] at hEq hNeed
  have hClog : Nat.clog 2 (used + size) =
      Nat.clog 2 used + (k + 1) := by
    apply Nat.le_antisymm
    · exact Nat.clog_le_of_le_pow hNeed
    · have hLess : 2 ^ (Nat.clog 2 used + k) <
          used + size := by
        rcases hLeast with rfl | hLess
        · exact hGrows
        · rw [Nat.pow_add]
          exact hLess
      have := (Nat.lt_clog_iff_pow_lt (by omega)).mpr hLess
      omega
  rw [hEq, hClog]

/- While the bytes fit, the block is still the least one. -/
theorem clog_of_fits
    {used size : Nat}
    (hFits : used + size ≤ 2 ^ Nat.clog 2 used) :
    Nat.clog 2 (used + size) = Nat.clog 2 used :=
  Nat.le_antisymm (Nat.clog_le_of_le_pow hFits)
    (Nat.clog_mono_right 2 (Nat.le_add_right _ _))

------------------------------------------------------------
-- One Call
------------------------------------------------------------

/-
  The buffer holds exactly the text and a NUL, and counts
  both.
-/
def HoldsText (buf : OutputBuffer) (text : Bytes) : Prop :=
  ∃ data, buf.data = some data ∧
    data.take buf.used = text ++ [0] ∧
    buf.used = 1 + text.length ∧ buf.used ≤ buf.alloc

/-
  A buffer that printed `text`: its block is the least power
  of two that holds it.
-/
structure Printed
    (buf : OutputBuffer)
    (data text : Bytes) : Prop where
  data_eq : buf.data = some data
  length_eq : data.length = buf.alloc
  text_eq : data.take buf.used = text ++ [0]
  used_eq : buf.used = 1 + text.length
  alloc_eq : buf.alloc = 2 ^ Nat.clog 2 buf.used

namespace Printed

variable {buf : OutputBuffer}
variable {data text : Bytes}

theorem used_le
    (h : Printed buf data text) :
    buf.used ≤ buf.alloc := by
  rw [h.alloc_eq]
  exact Nat.le_pow_clog (by omega) _

theorem holds
    (h : Printed buf data text) :
    HoldsText buf text :=
  ⟨data, h.data_eq, h.text_eq, h.used_eq, h.used_le⟩

/- The assertion `*data == 0` holds. -/
theorem terminated
    (h : Printed buf data text) :
    data[buf.used - 1]? = some 0 := by
  have hUsed := h.used_eq
  have hTake : (data.take buf.used)[buf.used - 1]? =
      some 0 := by
    rw [h.text_eq, List.getElem?_append_right (by omega),
      show buf.used - 1 - text.length = 0 by omega]
    rfl
  rwa [List.getElem?_take_of_lt (by omega)] at hTake

theorem take_text
    (h : Printed buf data text) :
    data.take (buf.used - 1) = text := by
  have hUsed := h.used_eq
  have hTake : (data.take buf.used).take (buf.used - 1) =
      data.take (buf.used - 1) := by
    rw [List.take_take, Nat.min_eq_left (by omega)]
  rw [← hTake, h.text_eq,
    List.take_append_of_le_length (by omega),
    List.take_of_length_le (by omega)]

end Printed

theorem printed_initBuffer :
    Printed initBuffer [0] [] where
  data_eq := rfl
  length_eq := rfl
  text_eq := rfl
  used_eq := rfl
  alloc_eq := by simp [initBuffer]

/-
  A call returns, with the block that `vsnprintf` wrote to
  last: the old one, or a new one with the old text.
-/
theorem printBuffer_stores
    (junk : Nat → Nat → UInt8)
    {buf : OutputBuffer}
    {data text : Bytes}
    (h : Printed buf data text)
    (s : Bytes) :
    ∃ block : Bytes,
      block.length = 2 ^ Nat.clog 2 (buf.used + s.length) ∧
      block.take (buf.used - 1) = text ∧
      (s = [] → block = data) ∧
      printBuffer junk buf s = .ret
        { alloc := 2 ^ Nat.clog 2 (buf.used + s.length)
          used := buf.used + s.length
          data := some (vsnprintf block (buf.used - 1)
            (2 ^ Nat.clog 2 (buf.used + s.length) - buf.used)
            s).1 } := by
  have hLe := h.used_le
  have hLength := h.length_eq
  have hUsed := h.used_eq
  have hAlloc := h.alloc_eq
  have hNeed : buf.used + s.length ≤
      2 ^ Nat.clog 2 (buf.used + s.length) :=
    Nat.le_pow_clog (by omega) _
  have hSize : ∀ block : Bytes, ∀ pos avail : Nat,
      (vsnprintf block pos avail s).2 = s.length := by
    intro block pos avail
    unfold vsnprintf
    split <;> rfl
  unfold printBuffer
  simp only [h.data_eq, Outcome.ofOption, Outcome.ret_bind,
    h.terminated, ne_eq, not_true_eq_false, if_false, hSize]
  by_cases hFits : s.length > buf.alloc - buf.used
  · rw [if_pos hFits]
    have hGrows : 2 ^ Nat.clog 2 buf.used <
        buf.used + s.length := by omega
    rw [hAlloc, doubleSize_clog (by omega) hGrows]
    simp only [Outcome.ret_bind]
    refine ⟨realloc junk
      (vsnprintf data (buf.used - 1)
        (2 ^ Nat.clog 2 buf.used - buf.used) s).1
      (2 ^ Nat.clog 2 (buf.used + s.length)),
      ?_, ?_, ?_, ?_⟩
    · unfold realloc
      rw [List.length_append, List.length_map,
        List.length_range, vsnprintf_length (by omega)]
      omega
    · unfold realloc
      rw [List.take_append_of_le_length
        (by rw [vsnprintf_length (by omega)]; omega),
        vsnprintf_take (by omega)]
      exact h.take_text
    · intro hNil
      rw [hNil] at hFits
      simp at hFits
    · rw [if_pos (by omega)]
      unfold addUsed
      rw [if_pos hNeed]
      rfl
  · rw [if_neg hFits]
    have hSame : 2 ^ Nat.clog 2 (buf.used + s.length) =
        buf.alloc := by
      rw [clog_of_fits (by omega), hAlloc]
    refine ⟨data, ?_, h.take_text, fun _ => rfl, ?_⟩
    · rw [hSame, hLength]
    · unfold addUsed
      rw [if_pos (by simp only; omega), hSame]
      rfl

/-
  The buffer keeps the text exactly unless a text that is
  not empty fills the block to its last byte.
-/
theorem printBuffer_keeps
    (junk : Nat → Nat → UInt8)
    {buf : OutputBuffer}
    {data text s : Bytes}
    (h : Printed buf data text)
    (hRoom : s ≠ [] →
      buf.used + s.length ≠
        2 ^ Nat.clog 2 (buf.used + s.length)) :
    ∃ buf' data', printBuffer junk buf s = .ret buf' ∧
      Printed buf' data' (text ++ s) := by
  have hUsed := h.used_eq
  have hLe := h.used_le
  have hNeed : buf.used + s.length ≤
      2 ^ Nat.clog 2 (buf.used + s.length) :=
    Nat.le_pow_clog (by omega) _
  rcases printBuffer_stores junk h s with
    ⟨block, hBlock, hText, hNil, hPrint⟩
  refine ⟨_, _, hPrint, rfl, ?_, ?_, ?_, rfl⟩
  · rw [vsnprintf_length (by omega), hBlock]
  · by_cases hEmpty : s = []
    · subst hEmpty
      rw [List.append_nil]
      by_cases hFull :
          2 ^ Nat.clog 2 (buf.used + ([] : Bytes).length) -
            buf.used = 0
      · unfold vsnprintf
        rw [if_pos hFull, hNil rfl]
        exact h.text_eq
      · have hStore := vsnprintf_stores []
          (show buf.used - 1 ≤ block.length by omega)
          (show ([] : Bytes).length < _ from
            Nat.pos_of_ne_zero hFull)
        rw [hText, List.append_nil, List.length_nil,
          show buf.used - 1 + 0 + 1 = buf.used by omega]
          at hStore
        exact hStore
    · have hLess := Nat.lt_of_le_of_ne hNeed (hRoom hEmpty)
      have hStore := vsnprintf_stores s
        (show buf.used - 1 ≤ block.length by omega)
        (show s.length <
          2 ^ Nat.clog 2 (buf.used + s.length) - buf.used by
            omega)
      rw [hText, show buf.used - 1 + s.length + 1 =
        buf.used + s.length by omega] at hStore
      exact hStore
  · rw [List.length_append]
    simp only
    omega

/- A byte of the text before its end has been lost. -/
def Broken (buf : OutputBuffer) : Prop :=
  ∃ data i, buf.data = some data ∧ data[i]? = some 0 ∧
    i + 1 < buf.used

theorem printBuffer_breaks
    {junk : Nat → Nat → UInt8}
    {buf buf' : OutputBuffer}
    {data text s : Bytes}
    (h : Printed buf data text)
    (hSome : s ≠ [])
    (hFull : buf.used + s.length =
      2 ^ Nat.clog 2 (buf.used + s.length))
    (hPrint : printBuffer junk buf s = .ret buf') :
    Broken buf' := by
  have hUsed := h.used_eq
  have hLength := List.length_pos_iff.mpr hSome
  rcases printBuffer_stores junk h s with
    ⟨block, hBlock, _, _, hStored⟩
  rw [hStored, Outcome.ret.injEq] at hPrint
  rw [← hPrint, ← hFull]
  refine ⟨_, buf.used - 1 +
    (buf.used + s.length - buf.used) - 1, rfl, ?_, ?_⟩
  · apply vsnprintf_truncates
    · omega
    · omega
    · omega
  · simp only
    omega

/- A lost byte stays lost, whatever is printed later. -/
theorem printBuffer_broken
    {junk : Nat → Nat → UInt8}
    {buf buf' : OutputBuffer}
    {s : Bytes}
    (hBroken : Broken buf)
    (hPrint : printBuffer junk buf s = .ret buf') :
    Broken buf' := by
  rcases hBroken with ⟨data, i, hData, hZero, hi⟩
  have hAdd : ∀ {b b' : OutputBuffer} {size : Nat},
      addUsed b size = .ret b' →
        b'.data = b.data ∧ b'.used = b.used + size := by
    intro b b' size hAdd
    unfold addUsed at hAdd
    split at hAdd
    · rw [Outcome.pure_eq_ret_iff] at hAdd
      exact hAdd ▸ ⟨rfl, rfl⟩
    · cases hAdd
  have hPos : i < buf.used - 1 := by omega
  unfold printBuffer at hPrint
  simp only [hData, Outcome.ofOption,
    Outcome.ret_bind] at hPrint
  split at hPrint
  · cases hPrint
  · split at hPrint
    · rw [Outcome.bind_eq_ret_iff] at hPrint
      rcases hPrint with ⟨newSize, _, hPrint⟩
      split at hPrint
      · rcases hAdd hPrint with ⟨hNew, hUsed⟩
        refine ⟨_, i, hNew, ?_, by rw [hUsed]; simp only; omega⟩
        exact vsnprintf_before _ _ hPos
          (realloc_before (vsnprintf_before _ _ hPos hZero))
      · cases hPrint
    · rcases hAdd hPrint with ⟨hNew, hUsed⟩
      refine ⟨_, i, hNew, ?_, by rw [hUsed]; simp only; omega⟩
      exact vsnprintf_before _ _ hPos hZero

------------------------------------------------------------
-- Sequences of Calls
------------------------------------------------------------

/-
  No text that is not empty brings the bytes used, with
  the NUL, to a power of two.
-/
def NeverFills (used : Nat) : List Bytes → Prop
| [] => True
| s :: rest =>
    (s ≠ [] → ¬(used + s.length).isPowerOfTwo) ∧
      NeverFills (used + s.length) rest

theorem isPowerOfTwo_iff_clog
    {n : Nat} :
    n.isPowerOfTwo ↔ n = 2 ^ Nat.clog 2 n := by
  constructor
  · intro h
    rcases h with ⟨k, rfl⟩
    rw [Nat.clog_pow 2 k (by omega)]
  · intro h
    exact ⟨_, h⟩

/- A call of the understudy is a call on its buffer. -/
theorem bopPrintf_undy_eq_ret
    {junk : Nat → Nat → UInt8}
    {io io' : IoState}
    {s : Bytes} :
    bopPrintf junk .undy io s = .ret io' ↔
      ∃ buf, printBuffer junk io.undyBuffer s = .ret buf ∧
        { io with undyBuffer := buf } = io' := by
  simp only [bopPrintf, Outcome.bind_eq_ret_iff,
    Outcome.pure_eq_ret_iff]

theorem undyPrints_keeps
    (junk : Nat → Nat → UInt8)
    {texts : List Bytes}
    {io : IoState}
    {data text : Bytes}
    (h : Printed io.undyBuffer data text)
    (hNever : NeverFills io.undyBuffer.used texts) :
    ∃ io' data',
      texts.foldlM (bopPrintf junk .undy) io = .ret io' ∧
      Printed io'.undyBuffer data' (text ++ texts.flatten) := by
  induction texts generalizing io data text with
  | nil =>
      exact ⟨io, data, rfl, by simpa using h⟩
  | cons s rest ih =>
      rcases hNever with ⟨hRoom, hRest⟩
      rcases printBuffer_keeps junk h
          (fun hSome hFull =>
            hRoom hSome (isPowerOfTwo_iff_clog.mpr hFull)) with
        ⟨buf, data1, hPrint, hPrinted⟩
      have hUsed : buf.used =
          io.undyBuffer.used + s.length := by
        rw [hPrinted.used_eq, h.used_eq, List.length_append]
        omega
      have hNext : Printed
          ({ io with undyBuffer := buf } : IoState).undyBuffer
          data1 (text ++ s) := hPrinted
      rcases ih hNext (by simp only [hUsed]; exact hRest) with
        ⟨io', data', hRun, hEnd⟩
      refine ⟨io', data', ?_, ?_⟩
      · rw [List.foldlM_cons, bopPrintf_undy_eq_ret.mpr
          ⟨buf, hPrint, rfl⟩]
        exact hRun
      · rw [List.flatten_cons, ← List.append_assoc]
        exact hEnd

theorem undyPrints_broken
    {junk : Nat → Nat → UInt8}
    {texts : List Bytes}
    {io io' : IoState}
    (hBroken : Broken io.undyBuffer)
    (hRun : texts.foldlM (bopPrintf junk .undy) io =
      .ret io') :
    Broken io'.undyBuffer := by
  induction texts generalizing io with
  | nil =>
      rw [List.foldlM_nil, Outcome.pure_eq_ret_iff] at hRun
      exact hRun ▸ hBroken
  | cons s rest ih =>
      rw [List.foldlM_cons, Outcome.bind_eq_ret_iff] at hRun
      rcases hRun with ⟨io1, hFirst, hRest⟩
      rcases bopPrintf_undy_eq_ret.mp hFirst with
        ⟨buf, hPrint, rfl⟩
      exact ih (printBuffer_broken hBroken hPrint) hRest

/- A text that fills the block loses its last byte. -/
theorem undyPrints_fills
    {junk : Nat → Nat → UInt8}
    {texts : List Bytes}
    {io io' : IoState}
    {data text : Bytes}
    (h : Printed io.undyBuffer data text)
    (hFills : ¬NeverFills io.undyBuffer.used texts)
    (hRun : texts.foldlM (bopPrintf junk .undy) io =
      .ret io') :
    Broken io'.undyBuffer := by
  induction texts generalizing io data text with
  | nil => exact absurd trivial hFills
  | cons s rest ih =>
      rw [List.foldlM_cons, Outcome.bind_eq_ret_iff] at hRun
      rcases hRun with ⟨io1, hFirst, hRest⟩
      rcases bopPrintf_undy_eq_ret.mp hFirst with
        ⟨buf, hPrint, rfl⟩
      by_cases hFull : s ≠ [] ∧
          io.undyBuffer.used + s.length =
            2 ^ Nat.clog 2 (io.undyBuffer.used + s.length)
      · exact undyPrints_broken
          (printBuffer_breaks h hFull.1 hFull.2 hPrint) hRest
      · push Not at hFull
        rcases printBuffer_keeps junk h hFull with
          ⟨buf', data1, hPrint', hPrinted⟩
        have hEq : buf = buf' :=
          Outcome.ret.inj (hPrint.symm.trans hPrint')
        subst hEq
        have hUsed : buf.used =
            io.undyBuffer.used + s.length := by
          rw [hPrinted.used_eq, h.used_eq, List.length_append]
          omega
        refine ih hPrinted ?_ hRest
        intro hRestNever
        rw [hUsed] at hRestNever
        exact hFills ⟨fun hSome hPow =>
          hFull hSome (isPowerOfTwo_iff_clog.mp hPow),
          hRestNever⟩

/-
  After any calls of the understudy in a fresh group its
  buffer holds exactly the texts printed, and no assertion
  has failed, if and only if no text filled the buffer.
-/
theorem undyPrints_iff
    (junk : Nat → Nat → UInt8)
    {v : Vars}
    {io0 io : IoState}
    {texts : List Bytes}
    (hInit : ioGroupInit v io0 = .ret io)
    (hNul : ∀ s ∈ texts, (0 : UInt8) ∉ s) :
    (∃ io',
      texts.foldlM (bopPrintf junk .undy) io = .ret io' ∧
        HoldsText io'.undyBuffer texts.flatten) ↔
      NeverFills 1 texts := by
  have hFresh : io.undyBuffer = initBuffer := by
    unfold ioGroupInit at hInit
    simp only at hInit
    split at hInit
    · split at hInit
      · rw [Outcome.pure_eq_ret_iff] at hInit
        exact hInit ▸ rfl
      · cases hInit
    · cases hInit
  have hPrinted : Printed io.undyBuffer [0] [] :=
    hFresh ▸ printed_initBuffer
  have hUsed : io.undyBuffer.used = 1 := hFresh ▸ rfl
  constructor
  · intro h
    rcases h with ⟨io', hRun, data, hData, hText, hUsed', _⟩
    by_contra hFills
    rw [← hUsed] at hFills
    rcases undyPrints_fills hPrinted hFills hRun with
      ⟨data', i, hData', hZero, hi⟩
    have hEq : data' = data :=
      Option.some.inj (hData'.symm.trans hData)
    subst hEq
    have hIn : i < texts.flatten.length := by omega
    have hByte : texts.flatten[i]? = some 0 := by
      rw [← List.getElem?_append_left hIn, ← hText,
        List.getElem?_take_of_lt (by omega)]
      exact hZero
    rcases List.mem_flatten.mp
        (List.mem_of_getElem? hByte) with ⟨s, hs, hMem⟩
    exact hNul s hs hMem
  · intro hNever
    rw [← hUsed] at hNever
    rcases undyPrints_keeps junk hPrinted hNever with
      ⟨io', data', hRun, hEnd⟩
    exact ⟨io', hRun, by simpa using hEnd.holds⟩

/- The variables of `bop_io.c` before the first group. -/
def firstIo : IoState where
  outputBuffers := none
  undyBuffer := { alloc := 0, used := 0, data := none }
  numBuffers := 0
  stdout := []

/- One letter doubles the block and is lost. -/
theorem oneLetter_lost :
    ∃ io, ioGroupInit freshVars firstIo = .ret io ∧
      ¬(∃ io', [[97]].foldlM
          (bopPrintf (fun _ _ => 255) .undy) io = .ret io' ∧
        HoldsText io'.undyBuffer [[97]].flatten) ∧
      [[97], [98]].foldlM
        (bopPrintf (fun _ _ => 255) .undy) io = .fault := by
  refine ⟨_, rfl, ?_, by decide⟩
  intro h
  rcases h with ⟨io', hRun, data, hData, hText, _⟩
  cases hRun
  cases hData
  exact absurd hText (by decide)

/- Two letters and then four end with the NUL in place. -/
theorem undyPrints_iff_sixLetters :
    ∃ io, ioGroupInit freshVars firstIo = .ret io ∧
      ∃ io', [[97, 98], [99, 100, 101, 102]].foldlM
          (bopPrintf (fun _ _ => 255) .undy) io = .ret io' ∧
        HoldsText io'.undyBuffer
          [[97, 98], [99, 100, 101, 102]].flatten := by
  have hInit : ∃ io, ioGroupInit freshVars firstIo =
      .ret io := ⟨_, rfl⟩
  rcases hInit with ⟨io, hInit⟩
  refine ⟨io, hInit, (undyPrints_iff (fun _ _ => 255) hInit
    (by decide)).mpr ?_⟩
  simp only [NeverFills, isPowerOfTwo_iff_clog]
  decide

end Cbop
