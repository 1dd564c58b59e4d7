import Mathlib.Data.List.Forall2
import DualBank.Proofs.Contents
import DualBank.Proofs.Layout

/-! The durable words in a record. A device that keeps them at the start of a flash sector answers
every call on them as a device does that keeps them in memory of its own, however the calls follow
one another. A word that is erased is written in place, so no byte is ever written that is not
erased; any other change rewrites the whole record, and keeps the other word. -/
namespace DualBank

/-- The word in flash whose low byte is at an offset. -/
def Chip.word (c : Chip) (offset : Nat) : Word := (Word.at? (c.cells.read offset 4) 0).getD 0

namespace Chip

theorem toBytes_word (c : Chip) (offset : Nat) :
    (c.word offset).toBytes = c.cells.read offset 4 := Word.toBytes_ofBytes _ _ _ _

theorem word_eq_iff {c : Chip} {offset : Nat} {w : Word} :
    c.word offset = w ↔ c.cells.read offset 4 = w.toBytes := by
  constructor
  · rintro rfl
    exact (c.toBytes_word offset).symm
  · intro h
    have hw := Word.at?_toBytes w []
    rw [List.append_nil] at hw
    rw [word, h, hw, Option.getD_some]

theorem word_congr {c c' : Chip} {offset : Nat}
    (h : ∀ i, offset ≤ i → i < offset + 4 → c.byte i = c'.byte i) :
    c.word offset = c'.word offset := by
  rw [word, word, read_congr h]

/-- The bytes of a word that was never written are erased. -/
theorem byte_of_word {c : Chip} {offset : Nat} (h : c.word offset = erasedWord) {i : Nat}
    (hlo : offset ≤ i) (hhi : i < offset + 4) : c.byte i = erasedByte := by
  have hread : c.cells.read offset 4 = List.replicate 4 erasedByte := word_eq_iff.1 h
  have hi : i - offset < (c.cells.read offset 4).length := by
    rw [Cells.length_read]
    omega
  have hget := c.cells.getElem_read offset 4 hi
  rw [List.getElem_of_eq hread, List.getElem_replicate, Nat.add_sub_cancel' hlo] at hget
  exact hget.symm

end Chip

namespace Slot

theorem position_add_le (slot : Slot) : slot.position + 4 ≤ 8 := by cases slot <;> decide

/-- The words do not overlap. -/
theorem position_apart {slot slot' : Slot} (h : slot' ≠ slot) :
    slot'.position + 4 ≤ slot.position ∨ slot.position + 4 ≤ slot'.position := by
  cases slot <;> cases slot' <;> simp [position] at h ⊢

end Slot

namespace Board

/-- The words are in a record that has a sector to itself. The chip has the whole sector, there is
an address for the end of it, and no call on the chip is set to fail or kept out. -/
structure Records (a : Aperture) (address : Word) (offset : Nat) (b : Board) : Prop where
  store : b.store = .record a address
  free : a.held = false
  faultless : b.chip.Faultless
  offset_eq : a.offset address = .ok offset
  aligned : offset % sectorSize = 0
  within : offset + sectorSize ≤ b.chip.size
  stop_lt : address.toNat + sectorSize < UInt32.size

/-- The word of a record. -/
def recorded (offset : Nat) (b : Board) (slot : Slot) : Word := b.chip.word (offset + slot.position)

/-- No byte of the chip has changed that is outside of the sector at an offset. -/
structure Spared (offset : Nat) (b b' : Board) : Prop where
  size : b'.chip.size = b.chip.size
  byte : ∀ i < b.chip.size, ¬(offset ≤ i ∧ i < offset + sectorSize) →
    b'.chip.byte i = b.chip.byte i

theorem Spared.of_same {offset : Nat} {b b' : Board} (h : b.chip.Same b'.chip) :
    b.Spared offset b' := ⟨h.size, fun _ _ _ => by rw [h.byte]⟩

theorem Spared.trans {offset : Nat} {b b' b'' : Board} (h : b.Spared offset b')
    (h' : b'.Spared offset b'') : b.Spared offset b'' :=
  ⟨h'.size.trans h.size, fun i hi hout =>
    (h'.byte i (h.size ▸ hi) hout).trans (h.byte i hi hout)⟩

theorem Same.recorded {offset : Nat} {b b' : Board} (h : b.Same b') :
    b'.recorded offset = b.recorded offset :=
  funext fun _ => Chip.word_congr fun i _ _ => by rw [h.chip.byte]

namespace Records

variable {a : Aperture} {address : Word} {offset : Nat} {b b' : Board}

theorem of_chip (h : b.Records a address offset) (hstore : b.store.Same b'.store)
    (hsize : b'.chip.size = b.chip.size) (hf : b'.chip.Faultless) :
    b'.Records a address offset where
  store := by
    rw [h.store] at hstore
    exact hstore
  free := h.free
  faultless := hf
  offset_eq := h.offset_eq
  aligned := h.aligned
  within := hsize ▸ h.within
  stop_lt := h.stop_lt

theorem same (h : b.Records a address offset) (hs : b.Same b') : b'.Records a address offset :=
  h.of_chip hs.store hs.chip.size (hs.chip.faultless h.faultless)

/-- There is an address for each word. -/
theorem slotAddress_ok (h : b.Records a address offset) (slot : Slot) :
    ∃ home, slotAddress address slot = .ok home ∧ a.offset home = .ok (offset + slot.position) := by
  have hoffset := Aperture.offset_eq_ok.1 h.offset_eq
  have hstop := h.stop_lt
  have hposition := slot.position_add_le
  have hslot : (UInt32.ofNat slot.position).toNat = slot.position := by cases slot <;> rfl
  have hlt : address.toNat + slot.position < UInt32.size := by
    simp only [sectorSize] at hstop
    omega
  have hhome : (UInt32.ofNat (address.toNat + slot.position)).toNat =
      address.toNat + slot.position := UInt32.toNat_ofNat_of_lt' hlt
  have hplus : address.plus? (.ofNat slot.position) =
      some (.ofNat (address.toNat + slot.position)) := by
    rw [Word.plus?_eq_some, hhome, hslot]
  refine ⟨.ofNat (address.toNat + slot.position), ?_, ?_⟩
  · simp only [slotAddress, hplus]
  · rw [Aperture.offset_eq_ok, hhome]
    omega

theorem readWord_ok (h : b.Records a address offset) {slot : Slot} {home : Word}
    (hhome : a.offset home = .ok (offset + slot.position)) :
    Ends (a.readWord home) b fun o b' => o = .ok (b.recorded offset slot) ∧ b.Same b' := by
  have hwithin := h.within
  have hposition := slot.position_add_le
  simp only [sectorSize] at hwithin
  unfold Aperture.readWord
  have hroom : offset + slot.position + 4 ≤ b.chip.size := by omega
  refine (Aperture.read_ok h.faultless h.free hhome hroom).bind (fun bytes b' hread => ?_)
    fun e b' hfailed => ?_
  · obtain ⟨hbytes, hchip, hstore⟩ := hread
    cases hbytes
    exact Ends.pure ⟨rfl, hchip, hstore⟩
  · cases hfailed.1

/-- A read of a slot answers the word in the record. -/
theorem readSlot_ok (h : b.Records a address offset) (slot : Slot) :
    Ends (readSlot slot) b fun o b' => o = .ok (b.recorded offset slot) ∧ b.Same b' := by
  obtain ⟨home, haddress, hhome⟩ := h.slotAddress_ok slot
  unfold readSlot
  refine Ends.get_bind ?_
  rw [h.store]
  dsimp only
  rw [haddress]
  exact h.readWord_ok hhome

/-- What a write to a slot leaves behind: the record with one word changed, and all that is outside
of its sector. -/
structure Written (a : Aperture) (address : Word) (offset : Nat) (slot : Slot) (value : Word)
    (b b' : Board) : Prop where
  records : b'.Records a address offset
  recorded : ∀ slot', b'.recorded offset slot' =
    if slot' = slot then value else b.recorded offset slot'
  spared : b.Spared offset b'

/-- A word that is there already stays. -/
theorem written_same (h : b.Records a address offset) {slot : Slot} :
    Written a address offset slot (b.recorded offset slot) b b where
  records := h
  recorded slot' := by
    split
    · rename_i heq
      rw [heq]
    · rfl
  spared := .of_same (.refl _)

theorem Written.of_same {slot : Slot} {value : Word} {b'' : Board}
    (h : Written a address offset slot value b' b'') (hs : b.Same b') :
    Written a address offset slot value b b'' where
  records := h.records
  recorded slot' := by rw [h.recorded, hs.recorded]
  spared := (Spared.of_same hs.chip).trans h.spared

/-- An erased word is written in place. -/
theorem writeErased_ok (h : b.Records a address offset) {slot : Slot} {home : Word}
    (hhome : a.offset home = .ok (offset + slot.position))
    (herased : b.recorded offset slot = erasedWord) (value : Word) :
    Ends (a.write home value.toBytes) b fun o b' =>
      o = .ok () ∧ Written a address offset slot value b b' := by
  have hwithin := h.within
  have hposition := slot.position_add_le
  have hlen := value.length_toBytes
  simp only [sectorSize] at hwithin
  have hrefusal : b.chip.writeRefusal (offset + slot.position) value.toBytes = none :=
    Chip.writeRefusal_eq_none (by omega) fun i hlo hhi =>
      Chip.byte_of_word herased hlo (by omega)
  refine (Aperture.write_ok h.faultless h.free hhome hrefusal).mono fun o b' hdone => ?_
  obtain ⟨ho, hchip, hstore⟩ := hdone
  refine ⟨ho, h.of_chip hstore hchip.size (hchip.faultless h.faultless), fun slot' => ?_,
    hchip.size, fun i hi hout => ?_⟩
  · split
    · rename_i heq
      subst heq
      refine Chip.word_eq_iff.2 ?_
      have hroom : offset + slot'.position + value.toBytes.length ≤ b.chip.size := by omega
      have hread := Chip.read_preset hroom
      rw [hlen] at hread
      rw [← hread]
      exact Chip.read_congr fun i _ _ => by rw [hchip.byte]
    · rename_i hne
      have hapart := Slot.position_apart hne
      have hposition' := slot'.position_add_le
      refine Chip.word_congr fun i hlo hhi => ?_
      rw [hchip.byte]
      exact Chip.byte_preset_of_not (by omega) (by omega)
  · simp only [sectorSize] at hout
    rw [hchip.byte]
    exact Chip.byte_preset_of_not hi (by omega)

/-- The record with one word changed. -/
theorem overlay_record (b : Board) (offset : Nat) (slot : Slot) (value : Word) :
    (b.chip.cells.read offset 8).overlay slot.position value.toBytes =
      Word.toBytes (if .bank2Address = slot then value else b.recorded offset .bank2Address) ++
      Word.toBytes (if .activeBank = slot then value else b.recorded offset .activeBank) := by
  rw [Cells.read_append _ offset 4 4]
  simp only [recorded, Slot.position, Nat.add_zero]
  rw [← b.chip.toBytes_word offset, ← b.chip.toBytes_word (offset + 4)]
  cases slot <;> rfl

/-- Erasing the sector leaves the rest of the chip alone. -/
theorem eraseSector_ok (h : b.Records a address offset) :
    Ends (a.erase address (.ofNat sectorSize)) b fun o b' => o = .ok () ∧
      b'.Records a address offset ∧ b.Spared offset b' ∧
      ∀ i, offset ≤ i → i < offset + sectorSize → b'.chip.byte i = erasedByte := by
  have hwithin := h.within
  have haligned := h.aligned
  have hoffset := Aperture.offset_eq_ok.1 h.offset_eq
  have hstop := h.stop_lt
  have hsectors : a.sectors address (.ofNat sectorSize) = .ok (offset, offset + sectorSize) :=
    Aperture.sectors_eq_ok.2 ⟨hoffset, rfl, haligned, by decide, by omega⟩
  have hrefusal : b.chip.eraseRefusal offset (offset + sectorSize) = none := by
    rw [Chip.eraseRefusal, if_neg (by omega), if_neg (by simp only [sectorSize] at *; omega)]
  refine (Aperture.erase_ok h.faultless h.free hsectors hrefusal).mono fun o b' hdone => ?_
  obtain ⟨ho, hchip, hstore⟩ := hdone
  refine ⟨ho, h.of_chip hstore hchip.size (hchip.faultless h.faultless),
    ⟨hchip.size, fun i hi hout => ?_⟩, fun i hlo hhi => ?_⟩
  · rw [hchip.byte, Chip.byte_wiped _ _ _ hi, if_neg hout]
  · rw [hchip.byte, Chip.byte_wiped _ _ _ (by omega), if_pos ⟨hlo, hhi⟩]

/-- A record that is written to the erased sector reads back word for word. -/
theorem writeRecord_ok (h : b.Records a address offset)
    (herased : ∀ i, offset ≤ i → i < offset + sectorSize → b.chip.byte i = erasedByte)
    (w : Slot → Word) :
    Ends (a.write address ((w .bank2Address).toBytes ++ (w .activeBank).toBytes)) b fun o b' =>
      o = .ok () ∧ b'.Records a address offset ∧ b.Spared offset b' ∧
        ∀ slot, b'.recorded offset slot = w slot := by
  have hlen : ((w .bank2Address).toBytes ++ (w .activeBank).toBytes).length = 8 := rfl
  have hsector : 8 ≤ sectorSize := by decide
  have hwithin := h.within
  have hroom : offset + ((w .bank2Address).toBytes ++ (w .activeBank).toBytes).length ≤
    b.chip.size := by omega
  have hrefusal := Chip.writeRefusal_eq_none hroom fun i hlo hhi => herased i hlo (by omega)
  refine (Aperture.write_ok h.faultless h.free h.offset_eq hrefusal).mono fun o b' hdone => ?_
  obtain ⟨ho, hchip, hstore⟩ := hdone
  refine ⟨ho, h.of_chip hstore hchip.size (hchip.faultless h.faultless),
    ⟨hchip.size, fun i hi hout => ?_⟩, fun slot => ?_⟩
  · rw [hchip.byte]
    exact Chip.byte_preset_of_not hi (by omega)
  · have hread : b'.chip.cells.read offset (4 + 4) =
        (w .bank2Address).toBytes ++ (w .activeBank).toBytes := by
      rw [← Chip.read_preset hroom]
      exact Chip.read_congr fun i _ _ => by rw [hchip.byte]
    rw [Cells.read_append] at hread
    obtain ⟨hfirst, hsecond⟩ := List.append_inj hread rfl
    cases slot with
    | bank2Address => exact Chip.word_eq_iff.2 hfirst
    | activeBank => exact Chip.word_eq_iff.2 hsecond

/-- Any other change erases the sector and writes the record anew. -/
theorem replaceRecord_ok (h : b.Records a address offset) (slot : Slot) (value : Word) :
    Ends (replaceRecord a address slot value) b fun o b' =>
      o = .ok () ∧ Written a address offset slot value b b' := by
  have hsector : 8 ≤ sectorSize := by decide
  have hwithin := h.within
  have hroom : offset + 8 ≤ b.chip.size := by omega
  unfold replaceRecord
  refine (Aperture.read_ok h.faultless h.free h.offset_eq hroom).bind
    (fun record b₁ hread => ?_) fun _ _ hfailed => nomatch hfailed.1
  obtain ⟨hrecord, hsame⟩ := hread
  cases hrecord
  refine (h.same ⟨hsame.1, hsame.2⟩).eraseSector_ok.bind (fun _ b₂ hwiped => ?_)
    fun _ _ hfailed => nomatch hfailed.1
  obtain ⟨_, h₂, hspared₂, herased⟩ := hwiped
  rw [overlay_record]
  refine (h₂.writeRecord_ok herased fun slot' =>
    if slot' = slot then value else b.recorded offset slot').mono fun o b' hdone => ?_
  obtain ⟨ho, h', hspared, hwords⟩ := hdone
  exact ⟨ho, h', hwords, (Spared.of_same hsame.1).trans (hspared₂.trans hspared)⟩

/-- A write to a slot changes its word in the record. -/
theorem writeSlot_ok (h : b.Records a address offset) (slot : Slot) (value : Word) :
    Ends (writeSlot slot value) b fun o b' =>
      o = .ok () ∧ Written a address offset slot value b b' := by
  obtain ⟨home, haddress, hhome⟩ := h.slotAddress_ok slot
  unfold writeSlot
  refine Ends.get_bind ?_
  rw [h.store]
  dsimp only
  rw [haddress]
  refine (h.readWord_ok hhome).bind (fun current b₁ hread => ?_) fun _ _ hfailed =>
    nomatch hfailed.1
  obtain ⟨hcurrent, hsame⟩ := hread
  cases hcurrent
  have h₁ := h.same hsame
  have hwords : b₁.recorded offset = b.recorded offset := hsame.recorded
  -- What is written after the read is written from the start.
  refine Ends.mono (P := fun o b' => o = .ok () ∧ Written a address offset slot value b₁ b') ?_
    fun o b' hdone => ⟨hdone.1, hdone.2.of_same hsame⟩
  rw [← hwords]
  by_cases hsame : b₁.recorded offset slot = value
  · rw [if_pos hsame, ← hsame]
    exact Ends.pure ⟨rfl, h₁.written_same⟩
  · rw [if_neg hsame]
    by_cases herased : b₁.recorded offset slot = erasedWord
    · rw [if_pos herased]
      exact h₁.writeErased_ok hhome herased value
    · rw [if_neg herased]
      exact h₁.replaceRecord_ok slot value

end Records
end Board

/-! ## Calls on the words -/

/-- A call on one of the words. -/
inductive SlotCall where
  | read (slot : Slot)
  | write (slot : Slot) (value : Word)

namespace SlotCall

/-- Does the call. A read answers the word. -/
def act : SlotCall → Board.Action (Option Word)
  | read slot => do return some (← Board.readSlot slot)
  | write slot value => do
    Board.writeSlot slot value
    return none

/-- What the call comes to, and the device after it. -/
def perform (b : Board) (call : SlotCall) : Except UpdateError (Option Word) × Board :=
  match call.act b with
  | .ok v b => (.ok v, b)
  | .error e b => (.error e, b)

/-- What each of the calls comes to, and the device after it. A call that fails does not keep the
next one from being made. -/
def trace : Board → List SlotCall → List (Except UpdateError (Option Word) × Board)
  | _, [] => []
  | b, call :: calls => perform b call :: trace (perform b call).2 calls

theorem perform_of_ends {b : Board} {call : SlotCall}
    {Q : Except UpdateError (Option Word) → Board → Prop} (h : Ends call.act b Q) :
    Q (perform b call).1 (perform b call).2 := by
  unfold perform
  cases hx : call.act b with
  | ok v t => exact h.ok hx
  | error e t => exact h.error hx

end SlotCall

namespace Board

/-- The record of the first device has the words that the second one keeps in memory. -/
structure Mirrors (a : Aperture) (address : Word) (offset : Nat) (b b' : Board) : Prop where
  records : b.Records a address offset
  memory : b'.store.Faultless
  words : ∀ slot, b'.store.value? slot = some (b.recorded offset slot)

variable {a : Aperture} {address : Word} {offset : Nat} {b b' : Board}

/-- One call keeps the words in step. It succeeds on both devices, and with one answer. -/
theorem Mirrors.perform (h : Mirrors a address offset b b') (call : SlotCall) :
    (call.perform b).1 = (call.perform b').1 ∧ (call.perform b).1.isOk = true ∧
      Mirrors a address offset (call.perform b).2 (call.perform b').2 ∧
      b.Spared offset (call.perform b).2 := by
  cases call with
  | read slot =>
    have hrecord : Ends (SlotCall.read slot).act b fun o t =>
        o = .ok (some (b.recorded offset slot)) ∧ b.Same t :=
      (h.records.readSlot_ok slot).bind (fun _ _ ⟨ho, hs⟩ => Ends.pure ⟨by cases ho; rfl, hs⟩)
        fun _ _ hfailed => nomatch hfailed.1
    have hmemory : Ends (SlotCall.read slot).act b' fun o t =>
        o = .ok (some (b.recorded offset slot)) ∧ b'.store.Same t.store := by
      refine (readSlot_ends h.memory.plain slot).bind (fun v t hread => ?_) fun _ _ hfailed => ?_
      · obtain ⟨_, hs, _, hv⟩ := hread
        rw [h.words] at hv
        cases hv
        exact Ends.pure ⟨rfl, hs⟩
      · obtain ⟨_, _, _, _, hnot⟩ := hfailed
        exact absurd h.memory hnot
    obtain ⟨ho, hs⟩ := SlotCall.perform_of_ends hrecord
    obtain ⟨ho', hs'⟩ := SlotCall.perform_of_ends hmemory
    refine ⟨ho.trans ho'.symm, by rw [ho]; rfl, ⟨h.records.same hs, hs'.faultless h.memory,
      fun slot' => ?_⟩, .of_same hs.chip⟩
    rw [hs'.value?, h.words, hs.recorded]
  | write slot value =>
    have hrecord : Ends (SlotCall.write slot value).act b fun o t =>
        o = .ok none ∧ Records.Written a address offset slot value b t :=
      (h.records.writeSlot_ok slot value).bind (fun _ _ ⟨_, hw⟩ => Ends.pure ⟨rfl, hw⟩)
        fun _ _ hfailed => nomatch hfailed.1
    have hmemory : Ends (SlotCall.write slot value).act b' fun o t =>
        o = .ok none ∧ (b'.store.put slot value).Same t.store := by
      refine (writeSlot_ends h.memory.plain slot value).bind
        (fun _ _ ⟨_, hs, _⟩ => Ends.pure ⟨rfl, hs⟩) fun _ _ hfailed => ?_
      obtain ⟨_, _, _, _, hnot⟩ := hfailed
      exact absurd h.memory hnot
    obtain ⟨ho, hw⟩ := SlotCall.perform_of_ends hrecord
    obtain ⟨ho', hs'⟩ := SlotCall.perform_of_ends hmemory
    refine ⟨ho.trans ho'.symm, by rw [ho]; rfl, ⟨hw.records,
      hs'.faultless (Store.faultless_put h.memory _ _), fun slot' => ?_⟩, hw.spared⟩
    rw [hs'.value?, Store.value?_put h.memory.plain, hw.recorded]
    split
    · rfl
    · exact h.words slot'

/-- So do all calls, one after the other. -/
theorem Mirrors.trace (h : Mirrors a address offset b b') (calls : List SlotCall) :
    List.Forall₂ (fun x y => x.1 = y.1 ∧ x.1.isOk = true ∧ Mirrors a address offset x.2 y.2 ∧
      b.Spared offset x.2) (SlotCall.trace b calls) (SlotCall.trace b' calls) := by
  induction calls generalizing b b' with
  | nil => exact .nil
  | cons call calls ih =>
    obtain ⟨ho, hok, hnext, hspared⟩ := h.perform call
    refine .cons ⟨ho, hok, hnext, hspared⟩ ((ih hnext).imp fun x y hxy => ?_)
    exact ⟨hxy.1, hxy.2.1, hxy.2.2.1, hspared.trans hxy.2.2.2⟩

/-- A record refines the memory. It is accepted at the start of a sector, and the chip has the
sector; then every call on the words, in whatever order they come, answers as it does on a device
that keeps the two words of the record in memory. None fails, the words are the same after each of
them, and no byte outside of the sector changes. -/
theorem record_refines_memory (hstore : Store.ofRecord a address = .ok b.store)
    (hh : a.held = false) (hf : b.chip.Faultless) (ho : a.offset address = .ok offset)
    (hwithin : offset + sectorSize ≤ b.chip.size)
    (hstop : address.toNat + sectorSize < UInt32.size)
    (hmemory : b'.store = .memory
      { bank2Address := b.chip.word offset, activeBank := b.chip.word (offset + 4) })
    (calls : List SlotCall) :
    List.Forall₂ (fun x y => x.1 = y.1 ∧ x.1.isOk = true ∧ Mirrors a address offset x.2 y.2 ∧
      b.Spared offset x.2) (SlotCall.trace b calls) (SlotCall.trace b' calls) := by
  have haccepted : b.store = .record a address ∧ offset % sectorSize = 0 := by
    unfold Store.ofRecord at hstore
    rw [ho] at hstore
    change (if _ then _ else _) = _ at hstore
    split at hstore
    · cases hstore
    · rename_i haligned
      exact ⟨(Except.ok.inj hstore).symm, Decidable.not_not.1 haligned⟩
  refine Mirrors.trace ⟨⟨haccepted.1, hh, hf, ho, haccepted.2, hwithin, hstop⟩, ?_, fun slot => ?_⟩
    calls
  · rw [hmemory]
    exact ⟨rfl, fun _ => rfl, fun _ => rfl⟩
  · rw [hmemory]
    cases slot <;> rfl

end Board

namespace Sample

/-- The second sector has a record with an address of bank 2, and with no active bank yet. -/
def recordBoard : Board where
  chip := ({ size := 0x3000 : Chip }.preset 0x1000 (Word.toBytes 0x08002000)).preset 0x2000 [0x55]
  store := .record { base := 0x08000000 } 0x08001000

/-- A word that is written in place, one that is set to be erased, and one that stays. -/
def slotCalls : List SlotCall :=
  [.write .activeBank 1, .write .bank2Address erasedWord, .read .activeBank,
    .write .bank2Address 5, .write .bank2Address 5, .write .activeBank 0, .read .bank2Address]

end Sample

theorem Board.record_refines_memory_sample :
    Store.ofRecord { base := 0x08000000 } 0x08001000 = .ok Sample.recordBoard.store ∧
    Sample.recordBoard.chip.Faultless ∧
    Sample.recordBoard.chip.word 0x1000 = 0x08002000 ∧
    Sample.recordBoard.chip.word 0x1004 = erasedWord ∧
    (SlotCall.trace Sample.recordBoard Sample.slotCalls).map Prod.fst =
      [.ok none, .ok none, .ok (some 1), .ok none, .ok none, .ok none, .ok (some 5)] ∧
    List.Forall₂ (fun x y => x.1 = y.1 ∧ x.1.isOk = true ∧
        Mirrors { base := 0x08000000 } 0x08001000 0x1000 x.2 y.2 ∧
        Sample.recordBoard.Spared 0x1000 x.2)
      (SlotCall.trace Sample.recordBoard Sample.slotCalls)
      (SlotCall.trace { Sample.recordBoard with
        store := .memory { bank2Address := 0x08002000, activeBank := erasedWord } }
        Sample.slotCalls) := by
  have hstore : Store.ofRecord { base := 0x08000000 } 0x08001000 = .ok Sample.recordBoard.store :=
    rfl
  have hf : Sample.recordBoard.chip.Faultless := fun _ _ => rfl
  refine ⟨hstore, hf, by decide +kernel, by decide +kernel, by decide +kernel, ?_⟩
  exact record_refines_memory hstore rfl hf rfl (by decide) (by decide) rfl Sample.slotCalls

end DualBank
