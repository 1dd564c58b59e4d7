import DualBank.Proofs.Ends

/-! What a device holds, apart from the counters of the calls on it. Two devices that hold the same
answer every later call in the same way, unless the call is set to fail. The calls on the chip are
described by what they do to its bytes. -/
namespace DualBank

variable {α : Type}

namespace Chip

/-- The chips differ in their counters at most. -/
def Same (c c' : Chip) : Prop := ∃ w e k, c' = { c with writes := w, erases := e, calls := k }

/-- The chip with its bytes from `start` up to `stop` erased. -/
def wiped (c : Chip) (start stop : Nat) : Chip :=
  { c with cells := c.cells.fill start stop erasedByte }

/-- No call is set to fail. -/
def Faultless (c : Chip) : Prop := ∀ op n, c.faults op n = none

theorem Same.refl (c : Chip) : c.Same c := ⟨_, _, _, rfl⟩

theorem Same.trans {c c' c'' : Chip} (h : c.Same c') (h' : c'.Same c'') : c.Same c'' := by
  obtain ⟨_, _, _, rfl⟩ := h
  obtain ⟨w, e, k, rfl⟩ := h'
  exact ⟨w, e, k, rfl⟩

theorem Same.symm {c c' : Chip} (h : c.Same c') : c'.Same c := by
  obtain ⟨_, _, _, rfl⟩ := h
  exact ⟨c.writes, c.erases, c.calls, rfl⟩

theorem Same.size {c c' : Chip} (h : c.Same c') : c'.size = c.size := by
  obtain ⟨_, _, _, rfl⟩ := h; rfl

theorem Same.byte {c c' : Chip} (h : c.Same c') : c'.byte = c.byte := by
  obtain ⟨_, _, _, rfl⟩ := h; rfl

theorem Same.faultless {c c' : Chip} (h : c.Same c') (hf : c.Faultless) : c'.Faultless := by
  obtain ⟨_, _, _, rfl⟩ := h; exact hf

theorem Same.preset {c c' : Chip} (h : c.Same c') (offset : Nat) (b : Bytes) :
    (c.preset offset b).Same (c'.preset offset b) := by
  obtain ⟨w, e, k, rfl⟩ := h
  exact ⟨w, e, k, rfl⟩

theorem Same.wiped {c c' : Chip} (h : c.Same c') (start stop : Nat) :
    (c.wiped start stop).Same (c'.wiped start stop) := by
  obtain ⟨w, e, k, rfl⟩ := h
  exact ⟨w, e, k, rfl⟩

theorem preset_nil (c : Chip) (offset : Nat) : c.preset offset [] = c := rfl

theorem preset_append (c : Chip) (offset : Nat) (a b : Bytes) :
    c.preset offset (a ++ b) = (c.preset offset a).preset (offset + a.length) b := by
  have h : ∀ {d : Nat} (cells : Cells d) (pos : Nat),
      cells.write pos (a ++ b) = (cells.write pos a).write (pos + a.length) b := by
    intro d cells pos
    induction a generalizing cells pos with
    | nil => rfl
    | cons x a ih =>
      rw [List.cons_append, Cells.write, Cells.write, ih, List.length_cons,
        show pos + 1 + a.length = pos + (a.length + 1) by omega]
  rw [preset, preset, preset, h]

theorem byte_preset (c : Chip) (offset : Nat) (b : Bytes) {i : Nat} (h : i < c.size) :
    (c.preset offset b).byte i =
      if offset ≤ i then b.getD (i - offset) (c.byte i) else c.byte i :=
  Cells.get_write _ _ _ (Nat.lt_trans h (Cells.lt_size_log2 _))

/-- Bytes that are not written to stay. -/
theorem byte_preset_of_not {c : Chip} {offset : Nat} {b : Bytes} {i : Nat} (h : i < c.size)
    (hi : ¬(offset ≤ i ∧ i < offset + b.length)) : (c.preset offset b).byte i = c.byte i := by
  rw [byte_preset c offset b h]
  split
  · rw [List.getD_eq_getElem?_getD, List.getElem?_eq_none (by omega), Option.getD_none]
  · rfl

theorem byte_wiped (c : Chip) (start stop : Nat) {i : Nat} (h : i < c.size) :
    (c.wiped start stop).byte i = if start ≤ i ∧ i < stop then erasedByte else c.byte i :=
  Cells.get_fill _ _ _ _ (Nat.lt_trans h (Cells.lt_size_log2 _))

/-- Reading back what was written. -/
theorem read_preset {c : Chip} {offset : Nat} {b : Bytes} (h : offset + b.length ≤ c.size) :
    (c.preset offset b).cells.read offset b.length = b := by
  refine List.ext_getElem (Cells.length_read _ _ _) fun i hi hi' => ?_
  have hb := byte_preset c offset b (i := offset + i) (by omega)
  rw [Cells.getElem_read]
  refine hb.trans ?_
  rw [if_pos (by omega), Nat.add_sub_cancel_left, List.getD_eq_getElem?_getD,
    List.getElem?_eq_getElem hi', Option.getD_some]

/-- Reads are decided by the bytes. -/
theorem read_congr {c c' : Chip} {offset len : Nat}
    (h : ∀ i, offset ≤ i → i < offset + len → c.byte i = c'.byte i) :
    c.cells.read offset len = c'.cells.read offset len := by
  refine List.ext_getElem (by simp) fun i hi hi' => ?_
  rw [Cells.getElem_read, Cells.getElem_read]
  exact h _ (by omega) (by rw [Cells.length_read] at hi; omega)

def readRefusal (c : Chip) (offset len : Nat) : Option FlashError :=
  if c.size < offset + len then some .outOfBounds else none

def writeRefusal (c : Chip) (offset : Nat) (b : Bytes) : Option FlashError :=
  if c.size < offset + b.length then some .outOfBounds
  else if (c.cells.read offset b.length).any (· != erasedByte) then some .other
  else none

/-- Erased bytes may be written. -/
theorem writeRefusal_eq_none {c : Chip} {offset : Nat} {b : Bytes}
    (hs : offset + b.length ≤ c.size)
    (he : ∀ i, offset ≤ i → i < offset + b.length → c.byte i = erasedByte) :
    c.writeRefusal offset b = none := by
  have hall : (c.cells.read offset b.length).any (· != erasedByte) = false := by
    rw [List.any_eq_false]
    intro x hx
    obtain ⟨i, hi, rfl⟩ := List.mem_map.1 hx
    rw [List.mem_range'_1] at hi
    have hbyte : c.cells.get i = erasedByte := he i hi.1 hi.2
    simp [hbyte]
  rw [writeRefusal, if_neg (by omega), hall]
  rfl

def eraseRefusal (c : Chip) (start stop : Nat) : Option FlashError :=
  if stop < start ∨ c.size < stop then some .outOfBounds
  else if start % sectorSize ≠ 0 ∨ stop % sectorSize ≠ 0 then some .notAligned
  else none

/-- A call is refused, or is set to fail, and then nothing happens. Otherwise it answers `v` and
leaves the chip as `after`. -/
def Answers (c : Chip) (op : FlashOp) (refusal : Option FlashError) (v : α) (after : Chip) :
    Except FlashError α → Chip → Prop
  | .ok w, c' => refusal = none ∧ w = v ∧ after.Same c'
  | .error e, c' => c.Same c' ∧ (refusal = some e ∨ ∃ n, c.faults op n = some e)

/-- The counting of a call decides whether it fails by itself. -/
theorem count_ends (c : Chip) (op : FlashOp) : Ends (count op) c fun o c' =>
    ∃ k, c' = { c with calls := k } ∧ ∀ e, o = .error e → ∃ n, c.faults op n = some e := by
  unfold Ends count
  dsimp only
  cases h : c.faults op ((c.calls.next op).count op) with
  | none => exact ⟨_, rfl, fun e he => nomatch he⟩
  | some e => exact ⟨_, rfl, fun e' he => ⟨_, by cases he; exact h⟩⟩

/-- What follows the counting of a call. -/
theorem answers_of_count {c after : Chip} {op : FlashOp} {refusal : Option FlashError} {v : α}
    {k : Unit → Chip.Action α}
    (h : ∀ calls, Ends (k ()) { c with calls } (c.Answers op refusal v after)) :
    Ends (count op >>= k) c (c.Answers op refusal v after) := by
  refine (c.count_ends op).bind (fun _ t hcounted => ?_) fun e t hcounted => ?_
  · obtain ⟨calls, rfl, _⟩ := hcounted
    exact h calls
  · obtain ⟨_, rfl, he⟩ := hcounted
    exact ⟨⟨_, _, _, rfl⟩, .inr (he e rfl)⟩

theorem read_ends (c : Chip) (offset len : Nat) : Ends (read offset len) c
    (c.Answers .read (c.readRefusal offset len) (c.cells.read offset len) c) := by
  unfold read
  refine answers_of_count fun calls => Ends.get_bind ?_
  dsimp only
  by_cases hs : c.size < offset + len
  · rw [if_pos hs]
    exact Ends.throw_bind ⟨⟨_, _, _, rfl⟩, .inl (if_pos hs)⟩
  · rw [if_neg hs]
    exact Ends.pure ⟨if_neg hs, rfl, _, _, _, rfl⟩

theorem write_ends (c : Chip) (offset : Nat) (b : Bytes) : Ends (write offset b) c
    (c.Answers .write (c.writeRefusal offset b) () (c.preset offset b)) := by
  unfold write
  refine answers_of_count fun calls => Ends.get_bind ?_
  dsimp only
  by_cases hs : c.size < offset + b.length
  · rw [if_pos hs]
    exact Ends.throw_bind ⟨⟨_, _, _, rfl⟩, .inl (if_pos hs)⟩
  · rw [if_neg hs]
    by_cases hb : (c.cells.read offset b.length).any (· != erasedByte) = true
    · rw [if_pos hb]
      exact Ends.throw_bind ⟨⟨_, _, _, rfl⟩, .inl (by rw [writeRefusal, if_neg hs, if_pos hb])⟩
    · rw [if_neg hb]
      exact ⟨by rw [writeRefusal, if_neg hs, if_neg hb], rfl, _, _, _, rfl⟩

theorem erase_ends (c : Chip) (start stop : Nat) : Ends (erase start stop) c
    (c.Answers .erase (c.eraseRefusal start stop) () (c.wiped start stop)) := by
  unfold erase
  refine answers_of_count fun calls => Ends.get_bind ?_
  dsimp only
  by_cases hs : stop < start ∨ c.size < stop
  · rw [if_pos hs]
    exact Ends.throw_bind ⟨⟨_, _, _, rfl⟩, .inl (if_pos hs)⟩
  · rw [if_neg hs]
    by_cases ha : start % sectorSize ≠ 0 ∨ stop % sectorSize ≠ 0
    · rw [if_pos ha]
      exact Ends.throw_bind ⟨⟨_, _, _, rfl⟩, .inl (by rw [eraseRefusal, if_neg hs, if_pos ha])⟩
    · rw [if_neg ha]
      exact ⟨by rw [eraseRefusal, if_neg hs, if_neg ha], rfl, _, _, _, rfl⟩

end Chip

namespace Store

/-- The stores differ in their counters at most. -/
def Same : Store → Store → Prop
  | .memory m, s => ∃ w r k, s = .memory { m with writes := w, readCalls := r, writeCalls := k }
  | .record a address, s => s = .record a address

/-- The words are in memory of their own, and no write to them is forgotten. -/
def Plain : Store → Prop
  | .memory m => m.ignoresWrites = false
  | .record _ _ => False

/-- Besides, no call is set to fail. -/
def Faultless : Store → Prop
  | .memory m =>
    m.ignoresWrites = false ∧ (∀ n, m.failsRead n = false) ∧ ∀ n, m.failsWrite n = false
  | .record _ _ => False

/-- What a word reads that is in memory of its own. -/
def value? : Store → Slot → Option Word
  | .memory m, slot => some (m.value slot)
  | .record _ _, _ => none

/-- The store after a write that was done. -/
def put (s : Store) (slot : Slot) (value : Word) : Store :=
  match s with
  | .memory m => .memory (if m.ignoresWrites then m else m.put slot value)
  | .record a address => .record a address

theorem Same.refl : ∀ s : Store, s.Same s
  | .memory _ => ⟨_, _, _, rfl⟩
  | .record _ _ => rfl

theorem Same.trans {s s' s'' : Store} (h : s.Same s') (h' : s'.Same s'') : s.Same s'' := by
  cases s with
  | memory m =>
    obtain ⟨_, _, _, rfl⟩ := h
    obtain ⟨w, r, k, rfl⟩ := h'
    exact ⟨w, r, k, rfl⟩
  | record a address => cases h; exact h'

theorem Same.symm {s s' : Store} (h : s.Same s') : s'.Same s := by
  cases s with
  | memory m =>
    obtain ⟨_, _, _, rfl⟩ := h
    exact ⟨m.writes, m.readCalls, m.writeCalls, rfl⟩
  | record a address => cases h; rfl

theorem Same.value? {s s' : Store} (h : s.Same s') (slot : Slot) :
    s'.value? slot = s.value? slot := by
  cases s with
  | memory m => obtain ⟨_, _, _, rfl⟩ := h; cases slot <;> rfl
  | record a address => cases h; rfl

theorem Same.plain {s s' : Store} (h : s.Same s') (hp : s.Plain) : s'.Plain := by
  cases s with
  | memory m => obtain ⟨_, _, _, rfl⟩ := h; exact hp
  | record a address => cases hp

theorem Same.faultless {s s' : Store} (h : s.Same s') (hp : s.Faultless) : s'.Faultless := by
  cases s with
  | memory m => obtain ⟨_, _, _, rfl⟩ := h; exact hp
  | record a address => cases hp

theorem Same.put {s s' : Store} (h : s.Same s') (slot : Slot) (value : Word) :
    (s.put slot value).Same (s'.put slot value) := by
  cases s with
  | memory m =>
    obtain ⟨w, r, k, rfl⟩ := h
    by_cases hi : m.ignoresWrites = true
    · exact ⟨w, r, k, by simp only [Store.put, if_pos hi]⟩
    · cases slot <;> exact ⟨w + 1, r, k, by simp only [Store.put, if_neg hi]; rfl⟩
  | record a address => cases h; rfl

theorem Faultless.plain {s : Store} (h : s.Faultless) : s.Plain := by
  cases s with
  | memory m => exact h.1
  | record a address => cases h

theorem plain_put {s : Store} (h : s.Plain) (slot : Slot) (value : Word) :
    (s.put slot value).Plain := by
  cases s with
  | memory m =>
    simp only [put, show m.ignoresWrites = false from h]
    cases slot <;> exact h
  | record a address => cases h

theorem faultless_put {s : Store} (h : s.Faultless) (slot : Slot) (value : Word) :
    (s.put slot value).Faultless := by
  cases s with
  | memory m =>
    simp only [put, show m.ignoresWrites = false from h.1]
    cases slot <;> exact h
  | record a address => cases h

/-- A word that was written reads as it was written, and the other one as before. -/
theorem value?_put {s : Store} (h : s.Plain) (slot slot' : Slot) (value : Word) :
    (s.put slot value).value? slot' = if slot' = slot then some value else s.value? slot' := by
  cases s with
  | memory m =>
    simp only [put, show m.ignoresWrites = false from h]
    cases slot <;> cases slot' <;> rfl
  | record a address => cases h

end Store

namespace Board

/-- The devices hold the same bytes and words. -/
structure Same (b b' : Board) : Prop where
  chip : b.chip.Same b'.chip
  store : b.store.Same b'.store

/-- No call on the device is set to fail, and its words are in memory of their own. -/
structure Faultless (b : Board) : Prop where
  chip : b.chip.Faultless
  store : b.store.Faultless

theorem Same.refl (b : Board) : b.Same b := ⟨.refl _, .refl _⟩

theorem Same.trans {b b' b'' : Board} (h : b.Same b') (h' : b'.Same b'') : b.Same b'' :=
  ⟨h.chip.trans h'.chip, h.store.trans h'.store⟩

theorem Same.symm {b b' : Board} (h : b.Same b') : b'.Same b := ⟨h.chip.symm, h.store.symm⟩

theorem Same.faultless {b b' : Board} (h : b.Same b') (hf : b.Faultless) : b'.Faultless :=
  ⟨h.chip.faultless hf.chip, h.store.faultless hf.store⟩

/-- A read of a slot answers the word, unless it is set to fail. -/
theorem readSlot_ends {b : Board} (h : b.store.Plain) (slot : Slot) :
    Ends (readSlot slot) b fun o b' =>
      b'.chip = b.chip ∧ b.store.Same b'.store ∧
      (∃ failed, b'.journal = .slotRead slot failed :: b.journal) ∧
      match o with
      | .ok v => b.store.value? slot = some v
      | .error e => e = .storageFault none ∧ ¬b.store.Faultless := by
  obtain ⟨chip, store, journal⟩ := b
  cases store with
  | record a address => cases h
  | memory m =>
    unfold readSlot
    refine Ends.get_bind ?_
    unfold onMemory SlotMemory.read Ends
    dsimp only
    by_cases hf : m.failsRead (m.readCalls + 1) = true
    · rw [if_pos hf]
      exact ⟨rfl, ⟨_, _, _, rfl⟩, ⟨_, rfl⟩, rfl, fun hs => by rw [hs.2.1] at hf; cases hf⟩
    · rw [if_neg hf]
      exact ⟨rfl, ⟨_, _, _, rfl⟩, ⟨_, rfl⟩, by cases slot <;> rfl⟩

/-- A write to a slot is done, unless it is set to fail. -/
theorem writeSlot_ends {b : Board} (h : b.store.Plain) (slot : Slot) (value : Word) :
    Ends (writeSlot slot value) b fun o b' => b'.chip = b.chip ∧
      match o with
      | .ok _ => (b.store.put slot value).Same b'.store ∧
          b'.journal = .slotWrite slot value false :: b.journal
      | .error e => e = .storageFault none ∧ b.store.Same b'.store ∧
          b'.journal = .slotWrite slot value true :: b.journal ∧ ¬b.store.Faultless := by
  obtain ⟨chip, store, journal⟩ := b
  cases store with
  | record a address => cases h
  | memory m =>
    have hi : ¬m.ignoresWrites = true := by simp [show m.ignoresWrites = false from h]
    unfold writeSlot
    refine Ends.get_bind ?_
    unfold onMemory SlotMemory.write Ends
    dsimp only
    by_cases hf : m.failsWrite (m.writeCalls + 1) = true
    · rw [if_pos hf]
      exact ⟨rfl, rfl, ⟨_, _, _, rfl⟩, rfl, fun hs => by rw [hs.2.2] at hf; cases hf⟩
    · rw [if_neg hf]
      simp only [if_neg hi, Store.put]
      cases slot <;> exact ⟨rfl, ⟨_, _, _, rfl⟩, rfl⟩

/-- What a call on the chip failed by, if it did. -/
def faultOf : Except FlashError α → Option FlashError
  | .ok _ => none
  | .error e => some e

theorem onChip_ends {call : FlashCall} {x : Chip.Action α} {b : Board}
    {Q : Except FlashError α → Chip → Prop} (h : Ends x b.chip Q) :
    Ends (onChip call x) b fun o b' => ∃ chip, Q o chip ∧
      b' = { b with chip, journal := .flash call (faultOf o) :: b.journal } := by
  unfold Ends onChip
  unfold Ends at h
  cases hx : x b.chip <;> rw [hx] at h <;> exact ⟨_, h, rfl⟩

end Board

/-- A call comes through the aperture, unless someone else holds the chip. -/
theorem Aperture.through_ends (a : Aperture) {call : FlashCall} {x : Chip.Action α} {b : Board}
    {Q : Except FlashError α → Chip → Prop} (h : Ends x b.chip Q) :
    Ends (a.through (Board.onChip call x)) b fun o b' =>
      a.held = true ∧ o = .error (.storageFault none) ∧ b' = b ∨
      a.held = false ∧ ∃ o' chip, Q o' chip ∧ o = o'.mapError (fun e => .storageFault (some e)) ∧
        b' = { b with chip, journal := .flash call (Board.faultOf o') :: b.journal } := by
  have hc : Ends (Board.onChip call x) b _ := Board.onChip_ends h
  unfold Aperture.through Ends
  dsimp only
  by_cases hh : a.held = true
  · rw [if_pos hh]
    exact .inl ⟨hh, rfl, rfl⟩
  · rw [if_neg hh]
    cases hx : Board.onChip call x b with
    | ok v b' =>
      obtain ⟨chip, hq, hb⟩ := hc.ok hx
      exact .inr ⟨by simpa using hh, _, chip, hq, rfl, hb⟩
    | error e b' =>
      obtain ⟨chip, hq, hb⟩ := hc.error hx
      exact .inr ⟨by simpa using hh, _, chip, hq, rfl, hb⟩

/-- An erasure is within the chip and erases, or it changes nothing. -/
theorem Aperture.erase_ends (a : Aperture) (address len : Word) (b : Board) :
    Ends (a.erase address len) b fun o b' => b.store.Same b'.store ∧
      match o with
      | .ok _ => a.held = false ∧ ∃ start stop, a.sectors address len = .ok (start, stop) ∧
          stop ≤ b.chip.size ∧ (b.chip.wiped start stop).Same b'.chip
      | .error _ => b.chip.Same b'.chip := by
  unfold Aperture.erase
  cases hs : a.sectors address len with
  | error e => exact ⟨.refl _, .refl _⟩
  | ok range =>
    obtain ⟨start, stop⟩ := range
    refine (a.through_ends (b.chip.erase_ends start stop)).mono fun o b' h => ?_
    obtain ⟨_, rfl, rfl⟩ | ⟨hh, o, chip, ho, rfl, rfl⟩ := h
    · exact ⟨.refl _, .refl _⟩
    · cases o with
      | error e => exact ⟨.refl _, ho.1⟩
      | ok v =>
        obtain ⟨href, _, hsame⟩ := ho
        refine ⟨.refl _, hh, start, stop, rfl, ?_, hsame⟩
        by_cases hc : stop < start ∨ b.chip.size < stop
        · rw [Chip.eraseRefusal, if_pos hc] at href
          cases href
        · omega

namespace Aperture

variable {a : Aperture} {b : Board} {address : Word} {offset : Nat}

/-- A call that is not refused is done. -/
theorem through_ok (hf : b.chip.Faultless) (hh : a.held = false) {op : FlashOp} {call : FlashCall}
    {x : Chip.Action α} {v : α} {after : Chip}
    (hx : Ends x b.chip (b.chip.Answers op none v after)) :
    Ends (a.through (Board.onChip call x)) b fun o b' => o = .ok v ∧ after.Same b'.chip ∧
      b.store.Same b'.store := by
  refine (a.through_ends hx).mono fun o b' h => ?_
  obtain ⟨hheld, _⟩ | ⟨_, o, chip, hc, rfl, rfl⟩ := h
  · rw [hh] at hheld
    cases hheld
  · cases o with
    | ok w => exact ⟨congrArg Except.ok hc.2.1, hc.2.2, .refl _⟩
    | error e =>
      obtain ⟨_, he | ⟨n, hn⟩⟩ := hc
      · cases he
      · rw [hf] at hn; cases hn

/-- A write that is not refused is done. -/
theorem write_ok (hf : b.chip.Faultless) (hh : a.held = false) (ho : a.offset address = .ok offset)
    {bytes : Bytes} (hr : b.chip.writeRefusal offset bytes = none) :
    Ends (a.write address bytes) b fun o b' => o = .ok () ∧
      (b.chip.preset offset bytes).Same b'.chip ∧ b.store.Same b'.store := by
  unfold Aperture.write
  rw [ho]
  exact through_ok hf hh (hr ▸ b.chip.write_ends offset bytes)

/-- A read within the chip answers what is there. -/
theorem read_ok (hf : b.chip.Faultless) (hh : a.held = false) (ho : a.offset address = .ok offset)
    {len : Nat} (hl : offset + len ≤ b.chip.size) :
    Ends (a.read address len) b fun o b' => o = .ok (b.chip.cells.read offset len) ∧
      b.chip.Same b'.chip ∧ b.store.Same b'.store := by
  have hr : b.chip.readRefusal offset len = none := if_neg (by omega)
  unfold Aperture.read
  rw [ho]
  exact through_ok hf hh (hr ▸ b.chip.read_ends offset len)

/-- An erasure that is not refused is done. -/
theorem erase_ok (hf : b.chip.Faultless) (hh : a.held = false) {len : Word} {start stop : Nat}
    (hs : a.sectors address len = .ok (start, stop))
    (hr : b.chip.eraseRefusal start stop = none) :
    Ends (a.erase address len) b fun o b' => o = .ok () ∧
      (b.chip.wiped start stop).Same b'.chip ∧ b.store.Same b'.store := by
  unfold Aperture.erase
  rw [hs]
  exact through_ok hf hh (hr ▸ b.chip.erase_ends start stop)

end Aperture
end DualBank
