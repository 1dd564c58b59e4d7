import DualBank.Proofs.Purpose
import DualBank.Proofs.Record

/-! A write to a record that fails. Up to the erasure of the sector, both words read as before. The
record is written again only after it, so a failure of that write loses both words, and they read
erased. No other failure changes either of them. -/
namespace DualBank

/-- Erased bytes are an erased word. -/
theorem Chip.word_of_erased {c : Chip} {offset : Nat}
    (h : ∀ i, offset ≤ i → i < offset + 4 → c.byte i = erasedByte) :
    c.word offset = erasedWord := by
  rw [Chip.word_eq_iff]
  show c.cells.read offset 4 = List.replicate 4 erasedByte
  refine List.ext_getElem (by simp) fun i hi hi' => ?_
  rw [Cells.length_read] at hi
  rw [Cells.getElem_read, List.getElem_replicate]
  exact h _ (by omega) (by omega)

namespace Aperture

variable {a : Aperture} {c c' : Chip} {address : Word} {offset : Nat}

/-- What a read of a word comes to, unless it is set to fail. -/
def wordIn (a : Aperture) (c : Chip) (address : Word) : Except UpdateError Word :=
  match a.offset address with
  | .error e => .error e
  | .ok offset =>
    if a.held then .error (.storageFault none)
    else if c.size < offset + 4 then .error (.storageFault (some .outOfBounds))
    else .ok (c.word offset)

theorem wordIn_same (h : c.Same c') : a.wordIn c' address = a.wordIn c address := by
  have hword : ∀ offset, c'.word offset = c.word offset := fun offset =>
    Chip.word_congr fun i _ _ => by rw [h.byte]
  simp only [wordIn, hword, h.size]

theorem readWord_ends (a : Aperture) (address : Word) (b : Board) :
    Ends (a.readWord address) b fun o b' => b.Same b' ∧
      (o = a.wordIn b.chip address ∨ o.isOk = false ∧ ¬b.chip.Faultless) := by
  unfold readWord Aperture.read wordIn
  cases a.offset address with
  | error e => exact ⟨.refl b, .inl rfl⟩
  | ok offset =>
    refine Ends.bind (a.through_ends (b.chip.read_ends offset 4)) (fun bytes b' h => ?_)
      fun e b' h => ?_
    · rcases h with ⟨_, h, _⟩ | ⟨hheld, o, chip, ho, hbytes, rfl⟩
      · cases h
      · cases o with
        | error e => cases hbytes
        | ok v =>
          cases hbytes
          obtain ⟨hrefusal, rfl, hsame⟩ := ho
          have hroom : ¬b.chip.size < offset + 4 := by
            intro hshort
            rw [Chip.readRefusal, if_pos hshort] at hrefusal
            cases hrefusal
          refine Ends.pure ⟨⟨hsame, .refl _⟩, .inl ?_⟩
          simp only [hheld, hroom, if_false, Bool.false_eq_true]
          rfl
    · rcases h with ⟨hheld, h, rfl⟩ | ⟨hheld, o, chip, ho, he, rfl⟩
      · cases h
        exact ⟨.refl _, .inl (by simp only [hheld, if_true])⟩
      · cases o with
        | ok v => cases he
        | error fault =>
          cases he
          obtain ⟨hsame, hrefusal | ⟨n, hn⟩⟩ := ho
          · refine ⟨⟨hsame, .refl _⟩, .inl ?_⟩
            unfold Chip.readRefusal at hrefusal
            split at hrefusal
            · rename_i hshort
              cases hrefusal
              simp only [hheld, hshort, if_true, if_false, Bool.false_eq_true]
            · cases hrefusal
          · refine ⟨⟨hsame, .refl _⟩, .inr ⟨rfl, fun hf => ?_⟩⟩
            rw [hf] at hn
            cases hn

/-- Where nobody else holds the chip, a write is made, and is in the journal with its fault. -/
theorem write_made (hh : a.held = false) (ho : a.offset address = .ok offset) (bytes : Bytes)
    (b : Board) : Ends (a.write address bytes) b fun o b' =>
      ∃ fault, fault.isNone = o.isOk ∧ Does [.flash (.write offset bytes) fault] b b' := by
  unfold write
  rw [ho]
  refine (a.through_ends (b.chip.write_ends offset bytes)).mono fun o b' h => ?_
  rcases h with ⟨hheld, _⟩ | ⟨_, o, chip, hanswer, rfl, rfl⟩
  · rw [hh] at hheld
    cases hheld
  · cases o with
    | ok v => exact ⟨none, rfl, .single rfl rfl ⟨hanswer.2.2, .refl _⟩⟩
    | error e => exact ⟨some e, rfl, .single rfl rfl ⟨hanswer.1, .refl _⟩⟩

end Aperture

namespace Board

/-- The device, with no call on its chip set to fail any more. -/
def mended (b : Board) : Board := { b with chip := { b.chip with faults := fun _ _ => none } }

/-- What a read of the slot answers on the mended device. -/
def reading (b : Board) (slot : Slot) : Except UpdateError Word :=
  match readSlot slot b.mended with
  | .ok w _ => .ok w
  | .error e _ => .error e

/-- The sector of the record was erased, and the write of the record that followed failed. -/
def Torn (a : Aperture) (address : Word) (b b' : Board) : Prop :=
  ∃ offset record fault, a.offset address = .ok offset ∧
    b'.mutations = b.mutations ++ [.flash (.erase offset (offset + sectorSize)) none,
      .flash (.write offset record) (some fault)]

variable {a : Aperture} {address : Word} {offset : Nat} {b b' : Board} {slot : Slot}

theorem reading_eq (hs : b.store = .record a address) (slot : Slot) :
    b.reading slot = (slotAddress address slot).bind (a.wordIn b.chip) := by
  have hends : Ends (readSlot slot) b.mended fun o _ =>
      o = (slotAddress address slot).bind (a.wordIn b.chip) := by
    unfold readSlot
    refine Ends.get_bind ?_
    rw [show b.mended.store = .record a address from hs]
    dsimp only
    cases slotAddress address slot with
    | error e => exact rfl
    | ok home =>
      refine (a.readWord_ends home b.mended).mono fun o b' h => ?_
      rcases h.2 with ho | ⟨_, hfaulty⟩
      · exact ho
      · exact absurd (fun _ _ => rfl) hfaulty
  unfold reading
  cases hx : readSlot slot b.mended with
  | ok w t => exact hends.ok hx
  | error e t => exact hends.error hx

theorem Same.record (h : b.Same b') (hs : b.store = .record a address) :
    b'.store = .record a address := by
  have hstore := h.store
  rw [hs] at hstore
  exact hstore

/-- A device that holds the same reads the same. -/
theorem Same.reading (h : b.Same b') (hs : b.store = .record a address) :
    b'.reading = b.reading := by
  have hword : a.wordIn b'.chip = a.wordIn b.chip := funext fun _ => Aperture.wordIn_same h.chip
  funext slot
  rw [reading_eq hs, reading_eq (h.record hs), hword]

/-- Behind the erasure of its sector, the words of a record read erased. -/
theorem reading_wiped (hs : b.store = .record a address) (hh : a.held = false)
    (ho : a.offset address = .ok offset) (hroom : offset + sectorSize ≤ b.chip.size)
    (h : Same { b with chip := b.chip.wiped offset (offset + sectorSize) } b') (slot : Slot) :
    b'.reading slot = (b.reading slot).map fun _ => erasedWord := by
  have hs' : b'.store = .record a address := h.record hs
  have hbase := Aperture.offset_eq_ok.1 ho
  have hslot := slot.position_add_le
  rw [reading_eq hs, reading_eq hs']
  cases hhome : slotAddress address slot with
  | error e => rfl
  | ok home =>
    have haddress := slotAddress_eq_ok hhome
    have hoffset : a.offset home = .ok (offset + slot.position) :=
      Aperture.offset_eq_ok.2 (by omega)
    simp only [sectorSize] at hroom h
    have herased : b'.chip.word (offset + slot.position) = erasedWord :=
      Chip.word_of_erased fun i hlo hhi => by
        rw [h.chip.byte, Chip.byte_wiped _ _ _ (by omega), if_pos (by omega)]
    have hshort : ¬b.chip.size < offset + slot.position + 4 := by omega
    have hshort' : ¬b'.chip.size < offset + slot.position + 4 := h.chip.size ▸ hshort
    simp only [Except.bind, Aperture.wordIn, hoffset, hh, hshort, hshort', herased, if_false,
      Bool.false_eq_true]
    rfl

/-- A call that failed changes nothing. -/
theorem same_of_failed {call : FlashCall} {fault : FlashError}
    (hd : Does [.flash call (some fault)] b b') : b.Same b' := by
  have hreplay := hd.replay
  cases call <;> exact hreplay

/-- How a write to a record fails: both words read as before, or the record is torn and they read
erased. -/
def FailsTo (a : Aperture) (address : Word) (b b' : Board) : Prop :=
  ¬b.Torn a address b' ∧ b'.reading = b.reading ∨
  b.Torn a address b' ∧ ∀ slot, b'.reading slot = (b.reading slot).map fun _ => erasedWord

/-- With one call or none, nothing is erased and written again. -/
theorem not_torn {ms : List Event} (hd : Does ms b b') (hfew : ms.length ≤ 1) :
    ¬b.Torn a address b' := by
  rintro ⟨offset, record, fault, _, hm⟩
  rw [hd.mutations] at hm
  rw [List.append_cancel_left hm] at hfew
  simp at hfew

theorem FailsTo.of_silent {b₁ : Board} (hs : b.store = .record a address) (h : Silent b b₁)
    (hfails : b₁.FailsTo a address b') : b.FailsTo a address b' := by
  have hread : b₁.reading = b.reading := h.replay.reading hs
  have hm : b₁.mutations = b.mutations := by rw [h.mutations, List.append_nil]
  unfold FailsTo Torn at *
  rwa [hm, hread] at hfails

/-- The sector of a record is erased, or nothing changes. -/
theorem eraseRecord_ends (a : Aperture) (address : Word) (b : Board) :
    Ends (a.erase address (.ofNat sectorSize)) b fun o b' =>
      match o with
      | .ok _ => ∃ offset, a.held = false ∧ a.offset address = .ok offset ∧
          offset + sectorSize ≤ b.chip.size ∧
          Does [.flash (.erase offset (offset + sectorSize)) none] b b'
      | .error _ => ∃ ms, ms.length ≤ 1 ∧ Does ms b b' ∧ b.Same b' := by
  refine ((a.erase_does address _ b).and (a.erase_ends address _ b)).mono fun o b' h => ?_
  obtain ⟨hdoes, hstore, hends⟩ := h
  cases o with
  | ok v =>
    obtain ⟨hh, start, stop, hsectors, hroom, _⟩ := hends
    rcases hdoes with ⟨h, _⟩ | ⟨_, _, fault, hsectors', hdone, hd⟩
    · cases h
    · rw [hsectors] at hsectors'
      cases hsectors'
      obtain ⟨hbase, rfl, _⟩ := Aperture.sectors_eq_ok.1 hsectors
      rw [Option.isNone_iff_eq_none.1 hdone] at hd
      exact ⟨start, hh, Aperture.offset_eq_ok.2 hbase, hroom, hd⟩
  | error e =>
    rcases hdoes with ⟨_, hd⟩ | ⟨_, _, _, _, _, hd⟩
    · exact ⟨_, by simp, hd, hends, hstore⟩
    · exact ⟨_, by simp, hd, hends, hstore⟩

/-- The record is lost exactly if it cannot be written to the erased sector. -/
theorem replaceRecord_fails (hs : b.store = .record a address) (slot : Slot) (value : Word) :
    Ends (replaceRecord a address slot value) b fun o b' =>
      o.isOk = false → b.FailsTo a address b' := by
  unfold replaceRecord
  refine (Quiet.readFlash a address 8 b).bind (fun record b₁ hread => ?_) fun e b' hread _ =>
    .inl ⟨not_torn hread (by simp), hread.replay.reading hs⟩
  have hs₁ := hread.replay.record hs
  refine Ends.mono (P := fun o b' => o.isOk = false → b₁.FailsTo a address b') ?_ fun o b' h ho =>
    (h ho).of_silent hs hread
  refine (eraseRecord_ends a address b₁).bind (fun _ b₂ h => ?_) fun e b₂ h _ => ?_
  · obtain ⟨offset, hh, ho, hroom, herase⟩ := h
    refine (Aperture.write_made hh ho _ b₂).mono fun o b₃ h hfailed => ?_
    obtain ⟨fault, hfault, hwrite⟩ := h
    rw [hfailed] at hfault
    cases fault with
    | none => cases hfault
    | some fault =>
      refine .inr ⟨⟨offset, _, fault, ho, (herase.trans hwrite).mutations⟩, fun slot' => ?_⟩
      exact reading_wiped hs₁ hh ho hroom (herase.replay.trans (same_of_failed hwrite)) slot'
  · obtain ⟨ms, hfew, hd, hsame⟩ := h
    exact .inl ⟨not_torn hd hfew, hsame.reading hs₁⟩

/-- A write to a record that fails leaves both words as they were, unless it was the record that
could not be written again to its erased sector. Then both words are lost, and the one that was to
change had been written before. -/
theorem writeSlot_fails (hs : b.store = .record a address) (slot : Slot) (value : Word) :
    Ends (writeSlot slot value) b fun o b' => ∀ e, o = .error e →
      ¬b.Torn a address b' ∧ (∀ slot', b'.reading slot' = b.reading slot') ∨
      b.Torn a address b' ∧
        (∀ slot', b'.reading slot' = (b.reading slot').map fun _ => erasedWord) ∧
        ∃ w, b.reading slot = .ok w ∧ w ≠ value ∧ w ≠ erasedWord := by
  have hearly : ∀ {b' : Board} {ms : List Event}, Does ms b b' → ms.length ≤ 1 → b.Same b' →
      ¬b.Torn a address b' ∧ ∀ slot', b'.reading slot' = b.reading slot' :=
    fun hd hfew h => ⟨not_torn hd hfew, fun _ => by rw [h.reading hs]⟩
  unfold writeSlot
  refine Ends.get_bind ?_
  rw [hs]
  dsimp only
  cases hhome : slotAddress address slot with
  | error e => exact fun _ _ => .inl (hearly (.refl b) (by simp) (.refl b))
  | ok home =>
    refine ((a.readWord_ends home b).and (Quiet.readWord a home b)).bind (fun current b₁ h => ?_)
      fun e b₁ h _ _ => .inl (hearly h.2 (by simp) h.1.1)
    obtain ⟨⟨_, hcurrent | ⟨hcurrent, _⟩⟩, hread⟩ := h
    · have hword : b.reading slot = .ok current := by
        rw [reading_eq hs, hhome]
        exact hcurrent.symm
      by_cases hvalue : current = value
      · rw [if_pos hvalue]
        exact Ends.pure fun _ h => nomatch h
      · rw [if_neg hvalue]
        by_cases herased : current = erasedWord
        · rw [if_pos herased]
          refine (a.write_does home value.toBytes b₁).mono fun o b' h e ho => .inl ?_
          subst ho
          rcases h with ⟨_, hd⟩ | ⟨_, fault, _, hfault, hd⟩
          · exact hearly (hread.trans hd) (by simp) (hread.trans hd).replay
          · cases fault with
            | none => cases hfault
            | some fault =>
              exact hearly (hread.trans hd) (by simp) (hread.replay.trans (same_of_failed hd))
        · rw [if_neg herased]
          refine (replaceRecord_fails (hread.replay.record hs) slot value).mono
            fun o b' h e ho => ?_
          subst ho
          obtain ⟨hnot, hsame⟩ | ⟨htorn, hlost⟩ := (h rfl).of_silent hs hread
          · exact .inl ⟨hnot, fun _ => by rw [hsame]⟩
          · exact .inr ⟨htorn, hlost, current, hword, hvalue, herased⟩
    · cases hcurrent

end Board

namespace Sample

/-- The record has both words, and the first call of this kind on the chip is set to fail. -/
def brittle (op : FlashOp) : Board where
  chip := { ({ size := 0x3000 : Chip }.preset 0x1000
      (Word.toBytes 0x08002000 ++ Word.toBytes 1)) with
    faults := fun op' n => if op' = op ∧ n = 1 then some .other else none }
  store := .record { base := 0x08000000 } 0x08001000

end Sample

/-- A failed erasure leaves the words, and a failed write after it loses them. -/
theorem Board.writeSlot_fails_sample :
    (∀ op, (Sample.brittle op).store = .record { base := 0x08000000 } 0x08001000) ∧
    (∃ b', writeSlot .activeBank 0 (Sample.brittle .erase) =
        .error (.storageFault (some .other)) b' ∧
      ∀ slot, b'.reading slot = (Sample.brittle .erase).reading slot) ∧
    ∃ b', writeSlot .activeBank 0 (Sample.brittle .write) =
        .error (.storageFault (some .other)) b' ∧
      (Sample.brittle .write).Torn { base := 0x08000000 } 0x08001000 b' ∧
      ∀ slot, b'.reading slot = ((Sample.brittle .write).reading slot).map fun _ => erasedWord := by
  refine ⟨fun _ => rfl, ⟨_, rfl, ?_⟩, ⟨_, rfl, ?_⟩⟩
  · rcases (writeSlot_fails (b := Sample.brittle .erase) rfl .activeBank 0).error rfl _ rfl with
      ⟨_, hsame⟩ | ⟨_, hlost, _⟩
    · exact hsame
    · exact absurd (hlost .activeBank) (by decide +kernel)
  · rcases (writeSlot_fails (b := Sample.brittle .write) rfl .activeBank 0).error rfl _ rfl with
      ⟨_, hsame⟩ | ⟨htorn, hlost, _⟩
    · exact absurd (hsame .activeBank) (by decide +kernel)
    · exact ⟨htorn, hlost⟩

/-- Only one word was to change, and both are lost. -/
theorem Board.failed_write_loses_record :
    ∃ b', writeSlot .activeBank 0 (Sample.brittle .write) =
        .error (.storageFault (some .other)) b' ∧
      (Sample.brittle .write).reading .bank2Address = .ok 0x08002000 ∧
      (Sample.brittle .write).reading .activeBank = .ok 1 ∧
      b'.reading .bank2Address = .ok erasedWord ∧ b'.reading .activeBank = .ok erasedWord := by
  refine ⟨_, rfl, ?_, ?_, ?_, ?_⟩ <;> decide +kernel

end DualBank
