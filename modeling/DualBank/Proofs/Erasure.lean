import DualBank.Proofs.Completeness
import DualBank.Proofs.Interruption
import DualBank.Proofs.Summation
import DualBank.Proofs.Verdict

/-! What an erasure covers, and what it is good for. It takes the sectors from an address on that
hold so many bytes, those and no others, or it changes nothing. Once the targets of a plan are
erased, each write of the transfer and of the commit falls on bytes of the chip that are still
erased, and succeeds, whatever the connection brings. -/
namespace DualBank

variable {σ : Type}

/-! ## The sectors of an erasure -/

theorem sectorsOf_lt {len : Nat} (h : 0 < len) : sectorsOf len < len + sectorSize := by
  simp only [sectorsOf, sectorSize]
  omega

namespace Aperture

variable {a : Aperture} {size : Nat} {address len : Word} {b : Board}

theorem canErase_iff (hh : a.held = false) : a.CanErase size address len ↔
    a.base.toNat ≤ address.toNat ∧ (address.toNat - a.base.toNat) % sectorSize = 0 ∧
      len.toNat ≤ UInt32.size - sectorSize ∧ sectorsOf len.toNat < UInt32.size ∧
      address.toNat - a.base.toNat + sectorsOf len.toNat < UInt32.size ∧
      address.toNat - a.base.toNat + sectorsOf len.toNat ≤ size := by
  have hsector : sectorSize = 4096 := rfl
  have hword : UInt32.size = 4294967296 := rfl
  constructor
  · rintro ⟨_, start, stop, hs, hle⟩
    obtain ⟨hbase, rfl, halign, hlen, hstop⟩ := sectors_eq_ok.1 hs
    obtain rfl : start = address.toNat - a.base.toNat := by omega
    exact ⟨by omega, halign, by omega, by omega, hstop, hle⟩
  · rintro ⟨hbase, halign, hlen, _, hstop, hle⟩
    exact ⟨hh, _, _, sectors_eq_ok.2 ⟨Nat.add_sub_of_le hbase, rfl, halign, by omega, hstop⟩, hle⟩

/-- An erasure that can be done erases its sectors, and any other changes nothing. -/
theorem erase_bytes (hf : b.chip.Faultless) : Ends (a.erase address len) b fun o b' =>
    b.store.Same b'.store ∧ b'.chip.size = b.chip.size ∧
    (o.isOk = true ↔ a.CanErase b.chip.size address len) ∧
    ∀ i < b.chip.size, b'.chip.byte i =
      if o.isOk = true ∧ address.toNat - a.base.toNat ≤ i ∧
          i < address.toNat - a.base.toNat + sectorsOf len.toNat then erasedByte
      else b.chip.byte i := by
  refine ((a.erase_ends address len b).and (erase_verdict hf)).mono fun o b' h => ?_
  obtain ⟨⟨hstore, hchip⟩, hverdict⟩ := h
  cases o with
  | ok v =>
    obtain ⟨_, start, stop, hs, _, hwiped⟩ := hchip
    obtain ⟨hbase, rfl, _⟩ := sectors_eq_ok.1 hs
    obtain rfl : start = address.toNat - a.base.toNat := by omega
    refine ⟨hstore, hwiped.size, hverdict, fun i hi => ?_⟩
    rw [hwiped.byte, Chip.byte_wiped _ _ _ hi]
    simp [Except.isOk, Except.toBool]
  | error e =>
    refine ⟨hstore, hchip.size, hverdict, fun i _ => ?_⟩
    rw [hchip.byte]
    simp [Except.isOk, Except.toBool]

end Aperture

/-! ## Writes over erased bytes -/

/-- If the call is a write to the chip, it is done, within the chip and over erased bytes only. -/
def Event.Clean (b : Board) : Event → Prop
  | .flash (.write offset bytes) fault => fault = none ∧ offset + bytes.length ≤ b.chip.size ∧
      ∀ i, offset ≤ i → i < offset + bytes.length → b.chip.byte i = erasedByte
  | _ => True

/-- Each call is clean where it is made. -/
def Cleanly : Board → List Event → Prop
  | _, [] => True
  | b, e :: calls => e.Clean b ∧ Cleanly (e.act b) calls

theorem Event.Clean.same {b b' : Board} (hs : b.Same b') {e : Event} (h : e.Clean b) :
    e.Clean b' := by
  unfold Clean at h ⊢
  split at h
  · obtain ⟨hfault, hroom, herased⟩ := h
    refine ⟨hfault, hs.chip.size ▸ hroom, fun i hlo hhi => ?_⟩
    rw [hs.chip.byte]
    exact herased i hlo hhi
  · trivial

theorem Cleanly.same {b b' : Board} (hs : b.Same b') {calls : List Event} (h : Cleanly b calls) :
    Cleanly b' calls := by
  induction calls generalizing b b' with
  | nil => trivial
  | cons e calls ih => exact ⟨h.1.same hs, ih (hs.act e) h.2⟩

theorem cleanly_append {b : Board} {calls calls' : List Event} :
    Cleanly b (calls ++ calls') ↔ Cleanly b calls ∧ Cleanly (calls.foldl Event.act b) calls' := by
  induction calls generalizing b with
  | nil => exact ⟨fun h => ⟨trivial, h⟩, And.right⟩
  | cons e calls ih => rw [List.cons_append, Cleanly, ih, Cleanly, List.foldl_cons, and_assoc]

/-- Between the two states of the device some writes and erasures were called, and no others, and
the writes to the chip were clean. -/
def Tidy (b b' : Board) : Prop := ∃ calls, Does calls b b' ∧ Cleanly b calls

namespace Tidy

variable {b b' b'' : Board}

theorem silent (h : Silent b b') : Tidy b b' := ⟨[], h, trivial⟩

theorem refl (b : Board) : Tidy b b := silent (.refl b)

theorem trans (h : Tidy b b') (h' : Tidy b' b'') : Tidy b b'' := by
  obtain ⟨calls, hd, hc⟩ := h
  obtain ⟨calls', hd', hc'⟩ := h'
  exact ⟨calls ++ calls', hd.trans hd', cleanly_append.2 ⟨hc, hc'.same hd.replay.symm⟩⟩

theorem of_single {e : Event} (h : Does [e] b b') (he : e.Clean b) : Tidy b b' :=
  ⟨[e], h, he, trivial⟩

theorem size (h : Tidy b b') : b'.chip.size = b.chip.size := by
  obtain ⟨_, hd, _⟩ := h
  exact hd.size

theorem chip_faultless (h : Tidy b b') (hf : b.chip.Faultless) : b'.chip.Faultless := by
  obtain ⟨_, hd, _⟩ := h
  exact hd.chip_faultless hf

end Tidy

/-- A write over erased bytes succeeds. -/
theorem Aperture.write_tidy {a : Aperture} {b : Board} {address : Word} {offset : Nat}
    (hf : b.chip.Faultless) (hh : a.held = false) (ho : a.offset address = .ok offset)
    {bytes : Bytes} (hroom : offset + bytes.length ≤ b.chip.size)
    (herased : ∀ i, offset ≤ i → i < offset + bytes.length → b.chip.byte i = erasedByte) :
    Ends (a.write address bytes) b fun o b' =>
      o = .ok () ∧ Tidy b b' ∧ (b.chip.preset offset bytes).Same b'.chip := by
  have hrefusal := Chip.writeRefusal_eq_none hroom herased
  refine ((write_ok hf hh ho hrefusal).and (write_made hh ho bytes b)).mono fun o b' h => ?_
  obtain ⟨⟨rfl, hchip, _⟩, fault, hdone, hd⟩ := h
  have hnone : fault = none := Option.isNone_iff_eq_none.1 hdone
  exact ⟨rfl, .of_single hd ⟨hnone, hroom, herased⟩, hchip⟩

/-! ## The transfer -/

/-- The error comes neither from the chip nor from an address that is out of its reach. -/
def UpdateError.Unflashed (ps : List Placement) (e : UpdateError) : Prop :=
  (∀ f, e ≠ .storageFault f) ∧ (e = .invalidAddress → ∃ p ∈ ps, ¬p.Addressed)

namespace UpdateError.Unflashed

variable {ps : List Placement}

theorem of_dries [Link σ] {r : Rig σ} {e : UpdateError} (h : r.Dries e) : e.Unflashed ps := by
  cases h <;> exact ⟨fun _ => nofun, nofun⟩

theorem invalidLayout : UpdateError.invalidLayout.Unflashed ps := ⟨fun _ => nofun, nofun⟩

theorem invalidAddress {p : Placement} (hp : p ∈ ps) (hs : ¬p.Addressed) :
    UpdateError.invalidAddress.Unflashed ps := ⟨fun _ => nofun, fun _ => ⟨p, hp, hs⟩⟩

end UpdateError.Unflashed

/-- The flash is erased where the images go, and no two of them go to the same place. -/
structure Aperture.Fresh (a : Aperture) (c : Chip) (ps : List Placement) : Prop where
  faultless : c.Faultless
  held : a.held = false
  clear : ∀ p ∈ ps, a.Clear c p
  apart : ps.Pairwise Placement.Apart

/-- No byte differs but those of these payloads, and the first ones of this. -/
def Aperture.Spares (a : Aperture) (ps : List Placement) (p : Placement) (written : Nat)
    (c c' : Chip) : Prop :=
  ∀ i < c.size, (∀ p' ∈ ps, ¬p'.Loads (a.base.toNat + i)) →
    ¬(p.destination.toNat ≤ a.base.toNat + i ∧
      a.base.toNat + i < p.destination.toNat + written) → c'.byte i = c.byte i

theorem Aperture.Spares.same {a : Aperture} {ps : List Placement} {p : Placement} {written : Nat}
    {c c' c'' : Chip} (h : a.Spares ps p written c c') (hs : c'.Same c'') :
    a.Spares ps p written c c'' := fun i hi hothers hown => by
  rw [hs.byte]
  exact h i hi hothers hown

namespace Rig

/-- What holds between two turns, whatever the connection said. The writes so far were clean, and
no byte differs but those of the images before and what came of this one. -/
structure Filling (a : Aperture) (plan : Plan) (r : Rig σ) (before : List Placement)
    (l : Loop σ) : Prop where
  placements : plan.placements = before ++ l.image :: l.later
  payloadLen : l.uptake.progress.payloadLen = l.image.payloadLen.toNat
  tidy : Tidy r.board l.rig.board
  spares : a.Spares before l.image l.uptake.progress.written r.board.chip l.rig.board.chip

section
variable {a : Aperture} {plan : Plan} {r : Rig σ} {before : List Placement} {l : Loop σ}

theorem Filling.image_mem (h : Filling a plan r before l) : l.image ∈ plan.placements := by
  rw [h.placements]
  exact List.mem_append_right _ List.mem_cons_self

/-- Payload bytes of the image at hand, right behind what came of it, go to erased bytes. -/
theorem Filling.write (h : Filling a plan r before l)
    (hfresh : a.Fresh r.board.chip plan.placements) {b : Board} (hsilent : Silent l.rig.board b)
    {address : Word}
    (haddress : address.toNat = l.image.destination.toNat + l.uptake.progress.written)
    {bytes : Bytes}
    (hfit : l.uptake.progress.written + bytes.length ≤ l.image.payloadLen.toNat) :
    Ends (a.write address bytes) b fun o b' => o = .ok () ∧ Tidy r.board b' ∧
      a.Spares before l.image (l.uptake.progress.written + bytes.length) r.board.chip b'.chip := by
  have himage := hfresh.clear l.image h.image_mem
  have hbase := himage.base_le
  have hwithin := himage.within
  have htidy := h.tidy.trans (.silent hsilent)
  have hsize := htidy.size
  have hspares : a.Spares before l.image l.uptake.progress.written r.board.chip b.chip :=
    h.spares.same hsilent.replay.chip
  have hbefore : ∀ p ∈ before, p.Apart l.image := fun p hp =>
    (List.pairwise_append.1 (h.placements ▸ hfresh.apart)).2.2 p hp _ List.mem_cons_self
  have ho : a.offset address =
      .ok (l.image.destination.toNat - a.base.toNat + l.uptake.progress.written) := by
    rw [Aperture.offset_eq_ok]
    omega
  refine (Aperture.write_tidy (htidy.chip_faultless hfresh.faultless) hfresh.held ho (by omega)
    fun i hlo hhi => ?_).mono fun o b' hdone => ?_
  · have hspans : l.image.Spans (a.base.toNat + i) := ⟨by omega, by omega⟩
    rw [hspares i (by omega) (fun p hp hloads => hbefore p hp _ ⟨hloads.spans, hspans⟩) (by omega)]
    exact himage.erased i hspans
  · obtain ⟨rfl, hmore, hchip⟩ := hdone
    refine ⟨rfl, htidy.trans hmore, fun i hi hothers hown => ?_⟩
    rw [hchip.byte, Chip.byte_preset_of_not (by omega) (by omega)]
    exact hspares i hi hothers (by omega)

/-- The payload bytes of a chunk, any chunk, go to erased bytes. -/
theorem Filling.deposit (h : Filling a plan r before l)
    (hfresh : a.Fresh r.board.chip plan.placements) {r₁ : Rig σ}
    (hsilent : Silent l.rig.board r₁.board) (chunk : Bytes) :
    Ends (Rig.deposit a l.image (l.uptake.progress.cut l.uptake.position chunk.length) chunk) r₁
      fun o r₂ => Tidy r.board r₂.board ∧ match o with
        | .ok _ => a.Spares before l.image
            (l.uptake.progress.feed l.uptake.position chunk).written r.board.chip r₂.board.chip
        | .error e => e.Unflashed plan.placements := by
  have htidy := h.tidy.trans (.silent hsilent)
  have hpayload : (l.uptake.progress.feed l.uptake.position chunk).written ≤
      l.image.payloadLen.toNat :=
    Nat.le_trans (l.uptake.progress.feed l.uptake.position chunk).written_le
      (Nat.le_of_eq h.payloadLen)
  have hwritten : (l.uptake.progress.feed l.uptake.position chunk).written =
      l.uptake.progress.written + ((l.uptake.progress.cut l.uptake.position chunk.length).stop -
        (l.uptake.progress.cut l.uptake.position chunk.length).start) := rfl
  have hoffset : (l.uptake.progress.cut l.uptake.position chunk.length).flashOffset =
      l.uptake.progress.written := rfl
  have hstart := l.uptake.progress.cut_start_le l.uptake.position chunk.length
  have hstop := l.uptake.progress.cut_stop_le l.uptake.position chunk.length
  -- Of the cut and of the new count only these bounds matter.
  generalize (l.uptake.progress.feed l.uptake.position chunk).written = written at *
  generalize l.uptake.progress.cut l.uptake.position chunk.length = cut at *
  have hlen : ((chunk.drop cut.start).take (cut.stop - cut.start)).length =
      cut.stop - cut.start := by
    rw [List.length_take, List.length_drop]
    omega
  rw [← hlen] at hwritten
  subst hwritten
  refine (deposit_ends (Q := fun o b' => Tidy r.board b' ∧ match o with
    | .ok _ => a.Spares before l.image _ r.board.chip b'.chip
    | .error e => e.Unflashed plan.placements) hstart hstop (fun hnone => ?_)
    fun _ => ?_).mono fun _ _ hdone => hdone.2.2
  · rw [hlen, hnone, Nat.sub_self, Nat.add_zero]
    exact ⟨htidy, h.spares.same hsilent.replay.chip⟩
  · rw [hoffset]
    split
    · rename_i address haddress
      refine (h.write hfresh hsilent (Word.ofNat?_eq_some.1 haddress) hpayload).mono
        fun o b' hdone => ?_
      obtain ⟨rfl, hdone⟩ := hdone
      exact hdone
    · rename_i hnone
      have htop := Word.ofNat?_eq_none.1 hnone
      refine ⟨htidy, .invalidAddress h.image_mem fun hs => ?_⟩
      unfold Placement.Addressed at hs
      omega

/-- All of an image that is complete is its payload. -/
theorem Filling.byte_of_complete (h : Filling a plan r before l)
    (hu : l.uptake.progress.isComplete = true) {i : Nat} (hi : i < r.board.chip.size)
    (hothers : ∀ p ∈ before ++ [l.image], ¬p.Loads (a.base.toNat + i)) :
    l.rig.board.chip.byte i = r.board.chip.byte i := by
  simp only [Progress.isComplete, Bool.and_eq_true, beq_iff_eq] at hu
  have hwritten : l.uptake.progress.written = l.image.payloadLen.toNat := hu.2.trans h.payloadLen
  refine h.spares i hi (fun p hp => hothers p (List.mem_append_left _ hp)) ?_
  rw [hwritten]
  exact hothers l.image (List.mem_append_right _ List.mem_cons_self)

variable [Link σ]

/-- A turn writes over erased bytes only. -/
theorem Filling.step (h : Filling a plan r before l)
    (hfresh : a.Fresh r.board.chip plan.placements)
    (hu : l.uptake.progress.isComplete = false) :
    Ends (step a l.image l.uptake hu) l.rig fun o r' => Tidy r.board r'.board ∧ match o with
      | .ok v => Filling a plan r before { l with uptake := v.val, rig := r' }
      | .error e => e.Unflashed plan.placements := by
  unfold Rig.step
  refine ((Quiet.refill l.uptake.window l.rig).and
    (refill_reads l.uptake.window l.rig)).bind (fun w r₁ hfilled => ?_)
    fun e r₁ hfailed => ⟨h.tidy.trans (.silent hfailed.1), .of_dries (hfailed.2.2 e rfl).2⟩
  refine Ends.get_bind ?_
  split
  · rename_i chunk _
    refine (h.deposit hfresh hfilled.1 chunk.val).bind (fun _ r₂ hdone => ?_)
      fun e r₂ hfailed => hfailed
    exact Ends.pure ⟨hdone.1, h.placements, h.payloadLen, hdone.1, hdone.2⟩
  · exact Ends.throw ⟨h.tidy.trans (.silent hfilled.1), .invalidLayout⟩

theorem Reaches.filling {n : Nat} (h : Reaches a plan r n l)
    (hfresh : a.Fresh r.board.chip plan.placements) :
    ∃ before, Filling a plan r before l := by
  induction h with
  | start hp => exact ⟨[], hp, rfl, .refl _, fun _ _ _ _ => rfl⟩
  | turn _ hu hv ih =>
    obtain ⟨before, hfilling⟩ := ih
    exact ⟨before, ((hfilling.step hfresh hu).ok hv).2⟩
  | @next n l p ps _ hu hp ih =>
    obtain ⟨before, hfilling⟩ := ih
    refine ⟨before ++ [l.image], ?_, rfl, hfilling.tidy,
      fun i hi hothers _ => hfilling.byte_of_complete hu hi hothers⟩
    rw [hfilling.placements, hp, List.append_assoc]
    rfl

/-- Over any connection, the transfer into flash that is erased writes over erased bytes only. No
write fails, and all that is not payload stays as it was. -/
theorem transfer_tidy (hplan : plan.placements ≠ [])
    (hfresh : a.Fresh r.board.chip plan.placements) :
    Ends (transfer a plan) r fun o r' => Tidy r.board r'.board ∧ match o with
      | .ok _ => ∀ i < r.board.chip.size,
          (∀ p ∈ plan.placements, ¬p.Loads (a.base.toNat + i)) →
          r'.board.chip.byte i = r.board.chip.byte i
      | .error e => e.Unflashed plan.placements := by
  by_cases hbuffer : r.buffer = []
  · exact Ends.get_bind (Ends.guard (fun _ => ⟨.refl _, .invalidLayout⟩) fun hne =>
      absurd hbuffer hne)
  · refine (transfer_reaches hplan hbuffer).mono fun o r' hend => ?_
    obtain ⟨n, l, hl, ho⟩ := hend
    obtain ⟨before, hfilling⟩ := hl.filling hfresh
    cases o with
    | ok s =>
      obtain ⟨⟨hlast, hu⟩, _, rfl⟩ := ho
      have hplacements := hfilling.placements
      rw [hlast] at hplacements
      rw [hplacements]
      exact ⟨hfilling.tidy, fun i hi hothers => hfilling.byte_of_complete hu hi hothers⟩
    | error e =>
      obtain ⟨hu, hfailed⟩ := ho
      exact (hfilling.step hfresh hu).error hfailed

end

end Rig

/-! ## The commit -/

theorem Aperture.erase_tidy (a : Aperture) (address len : Word) (b : Board) :
    Ends (a.erase address len) b fun _ b' => Tidy b b' := by
  refine (a.erase_does address len b).mono fun o b' h => ?_
  obtain ⟨_, hd⟩ | ⟨_, _, _, _, _, hd⟩ := h
  · exact .silent hd
  · exact .of_single hd trivial

theorem Aperture.wordIn_eq_ok {a : Aperture} {c : Chip} {address w : Word}
    (h : a.wordIn c address = .ok w) : ∃ offset, a.offset address = .ok offset ∧
      a.held = false ∧ offset + 4 ≤ c.size ∧ c.word offset = w := by
  unfold wordIn at h
  split at h
  · cases h
  · rename_i offset ho
    split at h
    · cases h
    · rename_i hheld
      split at h
      · cases h
      · rename_i hroom
        cases h
        exact ⟨offset, ho, by simpa using hheld, by omega, rfl⟩

namespace Board

variable {b : Board}

/-- The record is written again to its erased sector. -/
theorem replaceRecord_tidy (hf : b.chip.Faultless) (a : Aperture) (address : Word) (slot : Slot)
    (value : Word) : Ends (replaceRecord a address slot value) b fun _ b' => Tidy b b' := by
  refine ((length_read a address 8 b).and (Quiet.readFlash a address 8 b)).bind
    (fun record b₁ h => ?_) fun _ _ h => .silent h.2
  obtain ⟨hlen, hread⟩ := h
  have hrecord := hlen record rfl
  have hposition := slot.position_add_le
  have hsize : (record.overlay slot.position value.toBytes).length = 8 := by
    rw [Bytes.length_overlay, hrecord]
    rw [Word.length_toBytes, hrecord]
    exact hposition
  have htidy : Tidy b b₁ := .silent hread
  refine ((a.erase_tidy address _ b₁).and (eraseRecord_ends a address b₁)).bind
    (fun _ b₂ h => ?_) fun _ _ h => htidy.trans h.1
  obtain ⟨herase, offset, hh, ho, hroom, hd⟩ := h
  have htidy₂ := htidy.trans herase
  have hsector : 8 ≤ sectorSize := by decide
  have hroom₂ : offset + sectorSize ≤ b₂.chip.size := herase.size ▸ hroom
  refine (Aperture.write_tidy (htidy₂.chip_faultless hf) hh ho (by omega)
    fun i hlo hhi => ?_).mono fun _ _ hdone => htidy₂.trans hdone.2.1
  have hwiped : (b₁.chip.wiped offset (offset + sectorSize)).Same b₂.chip := hd.replay.chip
  rw [hwiped.byte, Chip.byte_wiped _ _ _ (by omega), if_pos (by omega)]

/-- Wherever the words are kept, a write to one of them writes to flash over erased bytes only. -/
theorem writeSlot_tidy (hf : b.chip.Faultless) (slot : Slot) (value : Word) :
    Ends (writeSlot slot value) b fun _ b' => Tidy b b' := by
  unfold writeSlot
  refine Ends.get_bind ?_
  cases hs : b.store with
  | memory m =>
    refine (writeMemory_does m slot value hs).mono fun _ b' h => ?_
    obtain ⟨failed, hd⟩ := h
    exact .of_single hd trivial
  | record a address =>
    dsimp only
    cases hhome : slotAddress address slot with
    | error e => exact Tidy.refl b
    | ok home =>
      refine ((a.readWord_ends home b).and (Quiet.readWord a home b)).bind (fun current b₁ h => ?_)
        fun _ _ h => .silent h.2
      obtain ⟨⟨hsame, hword | ⟨hfailed, _⟩⟩, hread⟩ := h
      · obtain ⟨offset, ho, hh, hroom, hcurrent⟩ := Aperture.wordIn_eq_ok hword.symm
        have htidy : Tidy b b₁ := .silent hread
        have hf₁ := htidy.chip_faultless hf
        split
        · exact htidy
        · split
          · rename_i herased
            rw [herased] at hcurrent
            refine (Aperture.write_tidy hf₁ hh ho (htidy.size ▸ hroom)
              fun i hlo hhi => ?_).mono fun _ _ hdone => htidy.trans hdone.2.1
            rw [hsame.chip.byte]
            exact Chip.byte_of_word hcurrent hlo hhi
          · exact (replaceRecord_tidy hf₁ a address slot value).mono fun _ _ => htidy.trans
      · cases hfailed

end Board

/-- So many bytes from the address on are in the chip, and erased. -/
def Aperture.Blank (a : Aperture) (c : Chip) (address : Word) (len : Nat) : Prop :=
  ∃ offset, a.offset address = .ok offset ∧ offset + len ≤ c.size ∧
    ∀ i, offset ≤ i → i < offset + len → c.byte i = erasedByte

/-- A signature that goes to erased flash is written, and the rest of the commit is tidy too. -/
theorem Board.commit_tidy {a : Aperture} {plan : Plan} {signature : Option Signature} {b : Board}
    (hf : b.chip.Faultless) (hh : a.held = false) {address : Word}
    (haddress : plan.bankAddress? = some address)
    (hblank : signature.isSome = true → a.Blank b.chip address 8) :
    (∀ g, signature = some g → ∃ b', a.write address g.bytes b = .ok () b') ∧
      Ends (commit a plan signature) b fun _ b' => Tidy b b' := by
  have hwrite : ∀ g, signature = some g →
      Ends (a.write address g.bytes) b fun o b' => o = .ok () ∧ Tidy b b' := by
    intro g hg
    obtain ⟨offset, ho, hroom, herased⟩ := hblank (by rw [hg]; rfl)
    have hlen := g.length_bytes
    exact (Aperture.write_tidy hf hh ho (by omega) fun i hlo hhi =>
      herased i hlo (by omega)).mono fun _ _ hdone => ⟨hdone.1, hdone.2.1⟩
  refine ⟨fun g hg => ?_, ?_⟩
  · obtain ⟨o, b', ⟨rfl, _⟩, hx⟩ := (hwrite g hg).outcome_eq
    exact ⟨b', hx⟩
  · unfold commit
    rw [haddress]
    cases signature with
    | none => exact writeSlot_tidy hf _ _
    | some g =>
      refine (hwrite g rfl).bind (fun _ b₁ hdone => ?_) fun _ _ hfailed => hfailed.2
      exact (writeSlot_tidy (hdone.2.chip_faultless hf) _ _).mono fun _ _ => hdone.2.trans

/-- The signature has its place right before the payload, where no payload goes. -/
theorem Aperture.blank_signature {a : Aperture} {ps : List Placement} {p : Placement}
    {c c' : Chip} (hp : p ∈ ps) (hfresh : a.Fresh c ps)
    (hlen : p.signatureLen = 8) {address : Word} (hs : p.regionStart? = some address)
    (hsize : c'.size = c.size)
    (hkept : ∀ i < c.size, (∀ p' ∈ ps, ¬p'.Loads (a.base.toNat + i)) → c'.byte i = c.byte i) :
    a.Blank c' address 8 := by
  have hstart := Placement.regionStart?_eq_some.1 hs
  have height : p.signatureLen.toNat = 8 := by rw [hlen]; rfl
  have hclear := hfresh.clear p hp
  have hbase := hclear.base_le
  have hwithin := hclear.within
  refine ⟨address.toNat - a.base.toNat, Aperture.offset_eq_ok.2 (by omega), by omega,
    fun i hlo hhi => ?_⟩
  have hspans : p.Spans (a.base.toNat + i) := ⟨by omega, by omega⟩
  rw [hkept i (by omega) fun p' hp' hloads => ?_]
  · exact hclear.erased i hspans
  · by_cases hsame : p = p'
    · have hpayload := hloads.1
      rw [← hsame] at hpayload
      omega
    · exact hfresh.apart.forall hp hp' hsame _ ⟨hspans, hloads.spans⟩

namespace Rig

/-- An erasure sets whole sectors to erased bytes: just those that cover the length from the address
on, and if they cannot all be erased it changes nothing. After the erasure of the targets of a plan
with regions apart from each other, all that the transfer and the commit write goes to bytes of the
chip that are still erased, and none of these writes fails. -/
theorem erase_exact [Link σ] {a : Aperture} {b : Board} (hh : a.held = false)
    (hf : b.chip.Faultless) :
    (∀ address len : Word,
      let start := address.toNat - a.base.toNat
      let stop := start + sectorsOf len.toNat
      (start + len.toNat ≤ stop ∧ (len.toNat = 0 → stop = start + sectorSize) ∧
        (0 < len.toNat → stop < start + len.toNat + sectorSize)) ∧
      Ends (a.erase address len) b fun o b' =>
        b.store.Same b'.store ∧ b'.chip.size = b.chip.size ∧
        (o.isOk = true ↔ a.base.toNat ≤ address.toNat ∧ start % sectorSize = 0 ∧
          len.toNat ≤ UInt32.size - sectorSize ∧ sectorsOf len.toNat < UInt32.size ∧
          stop < UInt32.size ∧ stop ≤ b.chip.size) ∧
        ∀ i < b.chip.size, b'.chip.byte i =
          if o.isOk = true ∧ start ≤ i ∧ i < stop then erasedByte else b.chip.byte i) ∧
    ∀ (plan : Plan) (r : Rig σ), plan.Made → plan.placements.Pairwise Placement.Apart →
      Board.eraseTargets a plan.placements b = .ok () r.board →
      Ends (transfer a plan) r fun o r' => Tidy r.board r'.board ∧ match o with
        | .ok s => ∀ b', Silent r'.board b' →
            (∀ g, s.signature = some g → ∃ address b'', plan.bankAddress? = some address ∧
              a.write address g.bytes b' = .ok () b'') ∧
            Ends (Board.commit a plan s.signature) b' fun _ b'' => Tidy b' b''
        | .error e => e.Unflashed plan.placements := by
  refine ⟨fun address len => ⟨⟨?_, fun hlen => ?_, fun hlen => ?_⟩, ?_⟩,
    fun plan r hplan hapart herased => ?_⟩
  · exact Nat.add_le_add_left (le_sectorsOf _) _
  · rw [hlen]
    rfl
  · have hlt := sectorsOf_lt hlen
    omega
  · rw [← Aperture.canErase_iff hh]
    exact Aperture.erase_bytes hf
  · obtain ⟨_, _, hfaultless, _, hclear⟩ :=
      (Board.eraseTargets_clear a plan.placements b).ok herased
    have hfresh : a.Fresh r.board.chip plan.placements :=
      ⟨hfaultless hf, hh, (hclear rfl).1, hapart⟩
    refine (((transfer_tidy hplan.placements_ne_nil hfresh).and Ends.self)).mono
      fun o r' hend => ?_
    obtain ⟨⟨htidy, ho⟩, hself⟩ := hend
    refine ⟨htidy, ?_⟩
    cases o with
    | error e => exact ho
    | ok s =>
      intro b' hsilent
      obtain ⟨p, hp, hrole, address, hstart, haddress⟩ := hplan.wellFormed.bankAddress
      have hreports := transfer_reports hplan (hself s rfl) p hp
      have htidy' := htidy.trans (.silent hsilent)
      have hkept : ∀ i < r.board.chip.size,
          (∀ p' ∈ plan.placements, ¬p'.Loads (a.base.toNat + i)) →
          b'.chip.byte i = r.board.chip.byte i := fun i hi hothers =>
        (congrFun hsilent.replay.chip.byte i).trans (ho i hi hothers)
      have hblank : s.signature.isSome = true → a.Blank b'.chip address 8 := fun hsome =>
        Aperture.blank_signature hp hfresh ((hreports.signature hrole).1 hsome)
          hstart htidy'.size hkept
      obtain ⟨hsigned, hcommit⟩ :=
        Board.commit_tidy (htidy'.chip_faultless hfresh.faultless) hh haddress hblank
      refine ⟨fun g hg => ?_, hcommit⟩
      obtain ⟨b'', hwritten⟩ := hsigned g hg
      exact ⟨address, b'', haddress, hwritten⟩

end Rig

namespace Sample

theorem apart_container : containerPlan.placements.Pairwise Placement.Apart := by
  refine List.pairwise_pair.2 fun n hn => ?_
  obtain ⟨⟨_, hhi⟩, ⟨hlo, _⟩⟩ := hn
  have hfirst : n < 8 + 2 := hhi
  have hsecond : 0x2000 - 0 ≤ n := hlo
  omega

end Sample

theorem Rig.erase_exact_sample : Sample.streaming.board.chip.Faultless ∧
    Sample.containerPlan.Made ∧ Sample.containerPlan.placements.Pairwise Placement.Apart ∧
    ∃ board, Board.eraseTargets { base := 0 } Sample.containerPlan.placements
        Sample.streaming.board = .ok () board ∧
      Ends (transfer { base := 0 } Sample.containerPlan) { Sample.streaming with board }
        fun o r' => Tidy board r'.board ∧ match o with
          | .ok s => ∀ b', Silent r'.board b' →
              (∀ g, s.signature = some g → ∃ address b'',
                Sample.containerPlan.bankAddress? = some address ∧
                Aperture.write { base := 0 } address g.bytes b' = .ok () b'') ∧
              Ends (Board.commit { base := 0 } Sample.containerPlan s.signature) b'
                fun _ b'' => Tidy b' b''
          | .error e => e.Unflashed Sample.containerPlan.placements := by
  have hf : Sample.streaming.board.chip.Faultless := fun _ _ => rfl
  refine ⟨hf, Sample.containerPlan_made, Sample.apart_container, _, rfl, ?_⟩
  exact (erase_exact rfl hf).2 Sample.containerPlan { Sample.streaming with board := _ }
    Sample.containerPlan_made Sample.apart_container rfl

end DualBank
