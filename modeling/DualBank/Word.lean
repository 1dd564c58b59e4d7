import DualBank.Bytes

/-! Words of 32 bits. Lengths and addresses on the wire and in flash are words, so sums and
differences of them are checked: a result that no word holds is `none`. Words are written with
the low byte first. -/
namespace DualBank

abbrev Word := UInt32

namespace Word

def ofNat? (n : Nat) : Option Word := if n < UInt32.size then some (UInt32.ofNat n) else none

def plus? (a b : Word) : Option Word := ofNat? (a.toNat + b.toNat)

def minus? (a b : Word) : Option Word := if b ≤ a then some (a - b) else none

def ofBytes (b₀ b₁ b₂ b₃ : UInt8) : Word :=
  UInt32.ofNat (b₀.toNat + 0x100 * b₁.toNat + 0x10000 * b₂.toNat + 0x1000000 * b₃.toNat)

def toBytes (w : Word) : Bytes :=
  [.ofNat w.toNat, .ofNat (w.toNat / 0x100), .ofNat (w.toNat / 0x10000),
    .ofNat (w.toNat / 0x1000000)]

/-- The word whose low byte is at position `pos`. -/
def at? (b : Bytes) (pos : Nat) : Option Word :=
  match b.drop pos with
  | b₀ :: b₁ :: b₂ :: b₃ :: _ => some (ofBytes b₀ b₁ b₂ b₃)
  | _ => none

theorem ofNat?_eq_some {n : Nat} {w : Word} : ofNat? n = some w ↔ w.toNat = n := by
  unfold ofNat?
  split
  · rename_i h
    simp only [Option.some.injEq]
    constructor
    · rintro rfl; exact Nat.mod_eq_of_lt h
    · rintro rfl; simp
  · rename_i h
    have hw := w.toNat_lt_size
    simp only [reduceCtorEq, false_iff]
    rintro rfl
    exact h hw

theorem ofNat?_eq_none {n : Nat} : ofNat? n = none ↔ UInt32.size ≤ n := by
  rw [ofNat?, ite_eq_right_iff]
  constructor
  · intro h
    exact Nat.le_of_not_lt fun hn => nomatch h hn
  · intro h hn
    exact absurd h (Nat.not_le_of_lt hn)

theorem plus?_eq_some {a b c : Word} : plus? a b = some c ↔ c.toNat = a.toNat + b.toNat :=
  ofNat?_eq_some

theorem minus?_eq_some {a b c : Word} : minus? a b = some c ↔ c.toNat + b.toNat = a.toNat := by
  have ha := a.toNat_lt
  have hb := b.toNat_lt
  have hc := c.toNat_lt
  unfold minus?
  split
  · rename_i h
    rw [UInt32.le_iff_toNat_le] at h
    simp only [Option.some.injEq, ← UInt32.toNat_inj, UInt32.toNat_sub_of_le _ _ h]
    omega
  · rename_i h
    rw [UInt32.le_iff_toNat_le] at h
    simp only [reduceCtorEq, false_iff]
    omega

@[simp] theorem length_toBytes (w : Word) : w.toBytes.length = 4 := rfl

/-- Writing a word and reading it back gives the word. -/
theorem at?_toBytes (w : Word) (rest : Bytes) : at? (w.toBytes ++ rest) 0 = some w := by
  have h := w.toNat_lt
  simp only [at?, toBytes, List.drop_zero, List.cons_append, ofBytes, Option.some.injEq,
    ← UInt32.toNat_inj]
  simp
  omega

/-- The bytes of a word determine it, and it has no others. -/
theorem toBytes_ofBytes (b₀ b₁ b₂ b₃ : UInt8) :
    (ofBytes b₀ b₁ b₂ b₃).toBytes = [b₀, b₁, b₂, b₃] := by
  have h₀ := b₀.toNat_lt
  have h₁ := b₁.toNat_lt
  have h₂ := b₂.toNat_lt
  have h₃ := b₃.toNat_lt
  simp only [toBytes, ofBytes, List.cons.injEq, and_true, ← UInt8.toNat_inj, UInt8.toNat_ofNat',
    UInt32.toNat_ofNat']
  omega

/-- A read stands for the four bytes that it took. -/
theorem at?_eq_some {b : Bytes} {pos : Nat} {w : Word} :
    at? b pos = some w ↔ w.toBytes = (b.drop pos).take 4 ∧ pos + 4 ≤ b.length := by
  have hl : (b.drop pos).length = b.length - pos := List.length_drop
  unfold at?
  split
  · rename_i b₀ b₁ b₂ b₃ rest hb
    rw [hb, List.length_cons, List.length_cons, List.length_cons, List.length_cons] at hl
    rw [hb]
    constructor
    · intro h
      cases h
      exact ⟨by rw [toBytes_ofBytes]; rfl, by omega⟩
    · rintro ⟨h, _⟩
      have hw : at? (w.toBytes ++ []) 0 = some w := at?_toBytes w []
      rw [h] at hw
      exact hw
  · rename_i hb
    constructor
    · intro h
      cases h
    · rintro ⟨h, hp⟩
      match hd : b.drop pos with
      | b₀ :: b₁ :: b₂ :: b₃ :: rest => exact absurd hd (hb b₀ b₁ b₂ b₃ rest)
      | [] | [_] | [_, _] | [_, _, _] =>
        rw [hd] at hl
        simp only [List.length_cons, List.length_nil] at hl
        omega

end Word
end DualBank
