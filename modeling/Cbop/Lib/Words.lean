import Mathlib.Data.Nat.Bitwise
import Mathlib.Tactic.Common

/-
  Little-endian 32-bit words in a memory of bytes, and sets
  of numbers that are held as the bits of such words.

  Main declarations:
    * `loadWord`, `storeWord`
    * `wordBit`, `setWordBit`
    * `wordBit_setWordBit`
    * `filter_wordBit`
-/

------------------------------------------------------------
-- Words
------------------------------------------------------------

/- The word at an address. -/
def loadWord (mem : Nat → UInt8) (a : Nat) : Nat :=
  (mem a).toNat + 2 ^ 8 * (mem (a + 1)).toNat +
    2 ^ 16 * (mem (a + 2)).toNat +
    2 ^ 24 * (mem (a + 3)).toNat

/- Replace the word at an address. -/
def storeWord
    (mem : Nat → UInt8)
    (a w : Nat) :
    Nat → UInt8 :=
  fun b =>
    if a ≤ b ∧ b < a + 4 then
      UInt8.ofNat (w / 2 ^ (8 * (b - a)))
    else
      mem b

theorem loadWord_lt
    (mem : Nat → UInt8)
    (a : Nat) :
    loadWord mem a < 2 ^ 32 := by
  have h0 := (mem a).toNat_lt
  have h1 := (mem (a + 1)).toNat_lt
  have h2 := (mem (a + 2)).toNat_lt
  have h3 := (mem (a + 3)).toNat_lt
  unfold loadWord
  omega

/- A word depends on its four bytes only. -/
theorem loadWord_congr
    {mem mem' : Nat → UInt8}
    {a : Nat}
    (hSame : ∀ b, a ≤ b → b < a + 4 → mem' b = mem b) :
    loadWord mem' a = loadWord mem a := by
  unfold loadWord
  rw [hSame a (by omega) (by omega),
    hSame (a + 1) (by omega) (by omega),
    hSame (a + 2) (by omega) (by omega),
    hSame (a + 3) (by omega) (by omega)]

theorem storeWord_of_outside
    {mem : Nat → UInt8}
    {a w b : Nat}
    (hOutside : b < a ∨ a + 4 ≤ b) :
    storeWord mem a w b = mem b := by
  unfold storeWord
  rw [if_neg (by omega)]

theorem storeWord_byte
    (mem : Nat → UInt8)
    (a w : Nat)
    {i : Nat}
    (hi : i < 4) :
    (storeWord mem a w (a + i)).toNat =
      w / 2 ^ (8 * i) % 2 ^ 8 := by
  unfold storeWord
  rw [if_pos (by omega), Nat.add_sub_cancel_left,
    UInt8.toNat_ofNat']

theorem loadWord_storeWord
    (mem : Nat → UInt8)
    (a : Nat)
    {w : Nat}
    (hWord : w < 2 ^ 32) :
    loadWord (storeWord mem a w) a = w := by
  have h0 := storeWord_byte mem a w (i := 0) (by omega)
  have h1 := storeWord_byte mem a w (i := 1) (by omega)
  have h2 := storeWord_byte mem a w (i := 2) (by omega)
  have h3 := storeWord_byte mem a w (i := 3) (by omega)
  rw [Nat.add_zero] at h0
  unfold loadWord
  rw [h0, h1, h2, h3]
  omega

/- The other words stay. -/
theorem loadWord_storeWord_of_apart
    {mem : Nat → UInt8}
    {a w b : Nat}
    (hApart : b + 4 ≤ a ∨ a + 4 ≤ b) :
    loadWord (storeWord mem a w) b = loadWord mem b := by
  apply loadWord_congr
  intro c hLow hHigh
  exact storeWord_of_outside (by omega)

------------------------------------------------------------
-- Bits of Words
------------------------------------------------------------

/- Bit `k` of the words that start at `map`. -/
def wordBit (mem : Nat → UInt8) (map k : Nat) : Bool :=
  (loadWord mem (map + 4 * (k / 32))).testBit (k % 32)

def setWordBit
    (mem : Nat → UInt8)
    (map k : Nat) :
    Nat → UInt8 :=
  storeWord mem (map + 4 * (k / 32))
    (loadWord mem (map + 4 * (k / 32)) ||| 2 ^ (k % 32))

theorem setWordBit_of_outside
    {mem : Nat → UInt8}
    {map k a : Nat}
    (hOutside : a < map + 4 * (k / 32) ∨
      map + 4 * (k / 32) + 4 ≤ a) :
    setWordBit mem map k a = mem a :=
  storeWord_of_outside hOutside

/- A bit depends on the four bytes of its word only. -/
theorem wordBit_congr
    {mem mem' : Nat → UInt8}
    {map k : Nat}
    (hSame : ∀ b, map + 4 * (k / 32) ≤ b →
      b < map + 4 * (k / 32) + 4 → mem' b = mem b) :
    wordBit mem' map k = wordBit mem map k := by
  unfold wordBit
  rw [loadWord_congr hSame]

/- The bits of words elsewhere stay. -/
theorem wordBit_setWordBit_of_apart
    {mem : Nat → UInt8}
    {map k map' j : Nat}
    (hApart :
      map + 4 * (k / 32) + 4 ≤ map' + 4 * (j / 32) ∨
        map' + 4 * (j / 32) + 4 ≤ map + 4 * (k / 32)) :
    wordBit (setWordBit mem map k) map' j =
      wordBit mem map' j := by
  apply wordBit_congr
  intro b hLow hHigh
  exact setWordBit_of_outside (by omega)

theorem wordBit_setWordBit
    (mem : Nat → UInt8)
    (map k j : Nat) :
    wordBit (setWordBit mem map k) map j =
      (wordBit mem map j || decide (k = j)) := by
  have hBit : 2 ^ (k % 32) < 2 ^ 32 :=
    Nat.pow_lt_pow_right (by omega) (by omega)
  unfold wordBit setWordBit
  by_cases hWord : k / 32 = j / 32
  · rw [hWord, loadWord_storeWord mem _
      (Nat.or_lt_two_pow (loadWord_lt mem _) hBit),
      Nat.testBit_or, Nat.testBit_two_pow]
    congr 1
    rw [decide_eq_decide]
    omega
  · rw [loadWord_storeWord_of_apart (by omega)]
    have hNe : k ≠ j := by
      intro hEq
      exact hWord (congrArg (· / 32) hEq)
    simp [hNe]

/- The set of numbers word by word. -/
theorem filter_wordBit
    (mem : Nat → UInt8)
    (map n : Nat) :
    (List.range (32 * n)).filter (wordBit mem map) =
      (List.range n).flatMap (fun i =>
        ((List.range 32).filter
          (loadWord mem (map + 4 * i)).testBit).map
            (fun j => 32 * i + j)) := by
  induction n with
  | zero => rfl
  | succ n ih =>
      have hLast : ((List.range 32).map
            (fun j => 32 * n + j)).filter (wordBit mem map) =
          ((List.range 32).filter
            (loadWord mem (map + 4 * n)).testBit).map
              (fun j => 32 * n + j) := by
        rw [List.filter_map]
        congr 1
        apply List.filter_congr
        intro j hj
        rw [List.mem_range] at hj
        have hDiv : (32 * n + j) / 32 = n := by omega
        have hMod : (32 * n + j) % 32 = j := by omega
        simp only [Function.comp_apply, wordBit, hDiv, hMod]
      rw [Nat.mul_succ, List.range_add, List.filter_append,
        ih, hLast, List.range_succ (n := n),
        List.flatMap_append, List.flatMap_singleton]
