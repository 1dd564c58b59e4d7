import DualBank.Bytes

/-! The cells of a flash chip: `size d` bytes, halved again and again, where a stretch of equal
bytes is one leaf. An erased chip is a single leaf, however large it is. The view is `get`, and
each operation is described by what it does to it. -/
namespace DualBank

inductive Cells : Nat → Type where
  | uniform {d : Nat} (b : UInt8) : Cells d
  | halves {d : Nat} (low high : Cells d) : Cells (d + 1)

namespace Cells

/-- How many cells there are after `d` doublings. -/
def size (d : Nat) : Nat := 1 <<< d

theorem size_zero : size 0 = 1 := rfl

theorem size_succ (d : Nat) : size (d + 1) = size d + size d := by
  rw [size, Nat.shiftLeft_succ, Nat.two_mul, size]

/-- There is a depth for any number of cells. -/
theorem lt_size_log2 (n : Nat) : n < size (n.log2 + 1) := by
  rw [size, Nat.shiftLeft_eq, Nat.one_mul]
  exact Nat.lt_log2_self

def get : {d : Nat} → Cells d → Nat → UInt8
  | _, uniform b, _ => b
  | d + 1, halves low high, i => if i < size d then low.get i else high.get (i - size d)

def low {d : Nat} : Cells (d + 1) → Cells d
  | uniform b => uniform b
  | halves l _ => l

def high {d : Nat} : Cells (d + 1) → Cells d
  | uniform b => uniform b
  | halves _ h => h

/-- Sets the cells from `start` up to `stop` to one byte. -/
def fill : {d : Nat} → Cells d → (start stop : Nat) → UInt8 → Cells d
  | 0, c, start, stop, b => if start = 0 ∧ 0 < stop then uniform b else c
  | d + 1, c, start, stop, b =>
    if stop ≤ start ∨ size (d + 1) ≤ start then c
    else if start = 0 ∧ size (d + 1) ≤ stop then uniform b
    else halves (c.low.fill start stop b) (c.high.fill (start - size d) (stop - size d) b)

def write {d : Nat} (c : Cells d) (pos : Nat) : Bytes → Cells d
  | [] => c
  | b :: bs => (c.fill pos (pos + 1) b).write (pos + 1) bs

def read {d : Nat} (c : Cells d) (pos len : Nat) : Bytes := (List.range' pos len).map c.get

/-- The cells that do not hold `blank`, in order. -/
def marks (blank : UInt8) : {d : Nat} → Cells d → (pos : Nat) → List (Nat × UInt8)
  | d, uniform b, pos => if b = blank then [] else (List.range' pos (size d)).map (·, b)
  | d + 1, halves low high, pos => low.marks blank pos ++ high.marks blank (pos + size d)

/-- Puts a cell in front of runs of neighbouring cells. -/
def join (cell : Nat × UInt8) : List (Nat × Bytes) → List (Nat × Bytes)
  | [] => [(cell.1, [cell.2])]
  | (next, bs) :: runs =>
    if next = cell.1 + 1 then (cell.1, cell.2 :: bs) :: runs
    else (cell.1, [cell.2]) :: (next, bs) :: runs

/-- The longest runs of cells that do not hold `blank`. -/
def runs {d : Nat} (c : Cells d) (blank : UInt8) : List (Nat × Bytes) :=
  (c.marks blank 0).foldr join []

theorem get_low {d : Nat} (c : Cells (d + 1)) {i : Nat} (h : i < size d) :
    c.low.get i = c.get i := by
  cases c with
  | uniform b => simp [low, get]
  | halves l r => simp [low, get, h]

theorem get_high {d : Nat} (c : Cells (d + 1)) (i : Nat) : c.high.get i = c.get (size d + i) := by
  cases c with
  | uniform b => simp [high, get]
  | halves l r => simp [high, get, show ¬(size d + i < size d) by omega]

theorem get_fill {d : Nat} (c : Cells d) (start stop : Nat) (b : UInt8) {i : Nat} (h : i < size d) :
    (c.fill start stop b).get i = if start ≤ i ∧ i < stop then b else c.get i := by
  induction d generalizing start stop i with
  | zero =>
    obtain rfl : i = 0 := by rw [size_zero] at h; omega
    simp only [fill, Nat.le_zero_eq]
    split <;> simp [get]
  | succ d ih =>
    have hp := size_succ d
    unfold fill
    split
    · rename_i hc
      rw [if_neg (by omega)]
    · split
      · rename_i hc
        rw [if_pos (by omega), get]
      · rw [get]
        split
        · rename_i hi
          rw [ih _ _ _ hi, get_low c hi]
        · rename_i hi
          rw [ih _ _ _ (by omega), get_high, show size d + (i - size d) = i by omega]
          congr 1
          simp only [eq_iff_iff]
          omega

theorem get_write {d : Nat} (c : Cells d) (pos : Nat) (bs : Bytes) {i : Nat} (h : i < size d) :
    (c.write pos bs).get i = if pos ≤ i then bs.getD (i - pos) (c.get i) else c.get i := by
  induction bs generalizing c pos with
  | nil => simp [write]
  | cons b bs ih =>
    rw [write, ih, get_fill c _ _ _ h]
    rcases Nat.lt_trichotomy i pos with hi | hi | hi
    · simp [show ¬(pos + 1 ≤ i) by omega, show ¬(pos ≤ i) by omega]
    · subst hi
      simp [show ¬(i + 1 ≤ i) by omega]
    · rw [if_pos (by omega), if_neg (by omega), if_pos (by omega),
        show i - pos = i - (pos + 1) + 1 by omega, List.getD_cons_succ]

@[simp] theorem length_read {d : Nat} (c : Cells d) (pos len : Nat) :
    (c.read pos len).length = len := by
  simp [read]

theorem getElem_read {d : Nat} (c : Cells d) (pos len : Nat) {i : Nat}
    (h : i < (c.read pos len).length) : (c.read pos len)[i] = c.get (pos + i) := by
  simp [read]

theorem read_append {d : Nat} (c : Cells d) (pos m n : Nat) :
    c.read pos (m + n) = c.read pos m ++ c.read (pos + m) n := by
  rw [read, read, read, ← List.map_append, List.range'_append_1]

end Cells
end DualBank
