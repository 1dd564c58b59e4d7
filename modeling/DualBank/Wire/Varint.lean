import DualBank.Bytes

/-! Numbers in groups of seven bits, low group first. Every byte but the last has its high bit set.
A reader takes a number below some limit from at most so many bytes, and does not mind high groups
that are zero. -/
namespace DualBank.Wire.Varint

def write (n : Nat) : Bytes :=
  if n < 128 then [.ofNat n] else .ofNat (n % 128 + 128) :: write (n / 128)
termination_by n

/-- The number at the front, if it ends within `most` bytes, and what follows it. -/
def readGroups : (most : Nat) → Bytes → Option (Nat × Bytes)
  | 0, _ => none
  | _, [] => none
  | most + 1, b :: rest =>
    if b.toNat < 128 then some (b.toNat, rest)
    else do
      let (high, rest) ← readGroups most rest
      return (b.toNat - 128 + 128 * high, rest)

def read (most limit : Nat) (b : Bytes) : Option (Nat × Bytes) := do
  let (n, rest) ← readGroups most b
  if n < limit then some (n, rest) else none

/-- The numbers of `most` groups are those below this one. -/
def capacity : (most : Nat) → Nat
  | 0 => 1
  | most + 1 => 128 * capacity most

/-- A number that was written is read back, whatever follows it. -/
theorem readGroups_write {most n : Nat} (rest : Bytes) (hm : most ≠ 0) (h : n < capacity most) :
    readGroups most (write n ++ rest) = some (n, rest) := by
  induction most generalizing n with
  | zero => exact absurd rfl hm
  | succ most ih =>
    rw [write]
    split
    · rename_i hn
      simp [readGroups, Nat.mod_eq_of_lt (show n < 256 by omega), hn]
    · rename_i hn
      rw [capacity] at h
      have hmost : most ≠ 0 := by
        rintro rfl
        rw [capacity] at h
        omega
      have hd : (UInt8.ofNat (n % 128 + 128)).toNat = n % 128 + 128 :=
        Nat.mod_eq_of_lt (by omega)
      have hdiv : n / 128 < capacity most := by omega
      simp only [List.cons_append, readGroups, hd]
      rw [if_neg (by omega), ih hmost hdiv]
      exact congrArg some (Prod.ext (by simp only; omega) rfl)

theorem read_write {most limit n : Nat} (rest : Bytes) (hm : most ≠ 0)
    (hl : limit ≤ capacity most) (h : n < limit) :
    read most limit (write n ++ rest) = some (n, rest) := by
  simp [read, readGroups_write rest hm (Nat.lt_of_lt_of_le h hl), h]

end DualBank.Wire.Varint
