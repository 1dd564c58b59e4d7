import DualBank.Proofs.Alike
import DualBank.Proofs.Packing
import DualBank.Proofs.Soundness

/-! What is packed can be installed. An image is accepted if the chip has sectors for it and the
stream has it whole, with its checksum; of a container that the builder has packed the stream has
all images so. -/
namespace DualBank

variable {σ : Type}

/-! ## Sectors that can be erased -/

/-- The chip has whole sectors for `len` bytes from an address on, and there is an address for the
end of them. -/
structure Aperture.Offers (a : Aperture) (size : Nat) (address : Word) (len : Nat) : Prop where
  base_le : a.base.toNat ≤ address.toNat
  aligned : (address.toNat - a.base.toNat) % sectorSize = 0
  within : address.toNat - a.base.toNat + sectorsOf len ≤ size
  stop_lt : address.toNat + sectorsOf len < UInt32.size

namespace Aperture.Offers

variable {a : Aperture} {size : Nat} {address : Word}

theorem sectors_ok {len : Word} (h : a.Offers size address len.toNat) :
    a.sectors address len = .ok (address.toNat - a.base.toNat,
      address.toNat - a.base.toNat + sectorsOf len.toNat) := by
  have hbase := h.base_le
  have hstop := h.stop_lt
  have hsize : UInt32.size = 4294967296 := rfl
  refine sectors_eq_ok.2 ⟨Nat.add_sub_cancel' hbase, rfl, h.aligned, ?_, by omega⟩
  simp only [sectorsOf, sectorSize] at hstop ⊢
  omega

theorem eraseRefusal_eq_none {c : Chip} {len : Nat} (h : a.Offers c.size address len) :
    c.eraseRefusal (address.toNat - a.base.toNat)
      (address.toNat - a.base.toNat + sectorsOf len) = none := by
  have halign := h.aligned
  have hwithin := h.within
  have hwhole : sectorsOf len % sectorSize = 0 := Nat.mul_mod_left _ _
  have hstop : (address.toNat - a.base.toNat + sectorsOf len) % sectorSize = 0 := by
    rw [Nat.add_mod, halign, hwhole]
    rfl
  rw [Chip.eraseRefusal, if_neg (by omega), if_neg (by simp [halign, hstop])]

end Aperture.Offers

/-- Sectors that the chip has can be erased. -/
theorem Board.eraseTargets_ok {a : Aperture} {ps : List Placement} {b : Board}
    (hf : b.chip.Faultless) (hh : a.held = false)
    (hps : ∀ p ∈ ps, ∃ start, p.regionStart? = some start ∧ a.Offers b.chip.size start p.span) :
    Ends (eraseTargets a ps) b fun o _ => o = .ok () := by
  induction ps generalizing b with
  | nil => exact Ends.pure rfl
  | cons p ps ih =>
    obtain ⟨start, hstart, hoffers⟩ := hps p List.mem_cons_self
    have hspan : p.span < UInt32.size := by
      have hle := le_sectorsOf p.span
      have hlt := hoffers.stop_lt
      omega
    have hlen : (UInt32.ofNat p.span).toNat = p.span := UInt32.toNat_ofNat_of_lt' hspan
    have hregion : p.regionLen? = some (.ofNat p.span) := Placement.regionLen?_eq_some.2 hlen
    rw [← hlen] at hoffers
    unfold eraseTargets
    simp only [hstart, hregion]
    refine (Aperture.erase_ok hf hh hoffers.sectors_ok hoffers.eraseRefusal_eq_none).bind
      (fun _ b₁ herased => ?_) fun e b₁ hfailed => ?_
    · obtain ⟨_, hchip, _⟩ := herased
      have hsize : b₁.chip.size = b.chip.size := hchip.size
      refine ih (hchip.faultless hf) fun p' hp' => ?_
      rw [hsize]
      exact hps p' (List.mem_cons_of_mem _ hp')
    · cases hfailed.1

/-! ## Images that pass -/

instance : Std.Symm Placement.Apart := ⟨fun _ _ h n hn => h n hn.symm⟩

/-- The image can be installed: the chip has sectors for it, and the stream has the whole of it,
with the checksum that it was planned with. -/
structure Placement.Ready (p : Placement) (a : Aperture) (size : Nat) (C : Bytes) : Prop where
  signatureLen : p.signatureLen.toNat = match p.role with
    | .primary => Signature.length
    | .secondary => 0
  region : ∃ start, p.regionStart? = some start ∧ a.Offers size start p.span
  whole : p.streamStop ≤ C.length
  checksum : Checksum.of ((C.drop p.streamOffset.toNat).take p.span) = p.expectedChecksum

theorem Plan.brought_ok {C : Bytes} {q : Nat} {s : Summary} {ps : List Placement}
    (h : ∀ p ∈ ps, p.streamStop ≤ C.length) : ∃ s', brought C q s ps = .ok s' := by
  induction ps generalizing q s with
  | nil => exact ⟨_, rfl⟩
  | cons p ps ih =>
    have hstop := h p List.mem_cons_self
    rw [brought, if_neg (by omega)]
    exact ih fun p' hp' => h p' (List.mem_cons_of_mem _ hp')

theorem Placement.streamStop_ofPrimary {h : ImageHeader} {address : Word} {p : Placement}
    (hp : ofPrimary h address = .ok p) : p.streamStop = h.stop := by
  obtain ⟨_, _, hoffset, _, hspan, _⟩ := ofPrimary_eq_ok hp
  rw [streamStop, hoffset, hspan, ImageHeader.stop]

namespace Placement.Ready

variable {p : Placement} {a : Aperture} {size : Nat} {C : Bytes} {c : Chip} {ps : List Placement}

theorem of_primary {h : ImageHeader} {address : Word} (hp : ofPrimary h address = .ok p)
    (hoffers : a.Offers size address h.imageLen.toNat) (hstop : h.stop ≤ C.length)
    (hchecksum : Checksum.of (h.imageIn C) = h.checksum) : p.Ready a size C := by
  obtain ⟨hrole, hsig, hoffset, hexpected, hspan, hregion⟩ := ofPrimary_eq_ok hp
  refine ⟨?_, ⟨address, hregion, hspan ▸ hoffers⟩, ?_, ?_⟩
  · rw [hrole, hsig]
    rfl
  · rw [streamStop_ofPrimary hp]
    exact hstop
  · rw [hoffset, hspan, hexpected]
    exact hchecksum

theorem of_secondary {h : ImageHeader} {address : Word}
    (hoffers : a.Offers size address h.imageLen.toNat) (hstop : h.stop ≤ C.length)
    (hchecksum : Checksum.of (h.imageIn C) = h.checksum) :
    (ofSecondary h address).Ready a size C :=
  ⟨rfl, ⟨address, regionStart?_eq_some.2 rfl, hoffers⟩, hstop, hchecksum⟩

theorem addressed (h : p.Ready a size C) : p.Addressed := by
  obtain ⟨start, hstart, hoffers⟩ := h.region
  have hdest := regionStart?_eq_some.1 hstart
  have hspan := le_sectorsOf p.span
  have hstop := hoffers.stop_lt
  unfold Addressed
  simp only [span] at hspan hstop
  omega

/-- A primary image leads with a signature. -/
theorem signatureOf (h : p.Ready a size C) (hrole : p.role = .primary) :
    ∃ signature : Signature, p.signatureOf? C = some signature ∧
      signature.bytes = p.signatureOf C := by
  have hlen := h.signatureLen
  have hwhole := h.whole
  rw [hrole] at hlen
  have hbytes : (p.signatureOf C).length = 8 := by
    rw [Placement.signatureOf, List.length_take, List.length_drop]
    simp only [streamStop, span, Signature.length] at hwhole hlen
    omega
  refine ⟨⟨p.signatureOf C, hbytes⟩, ?_, rfl⟩
  rw [signatureOf?, if_pos hlen]
  exact Signature.ofBytes?_eq_some.2 rfl

/-- What is loaded of it passes the check. -/
theorem passes (h : p.Ready a size C) (hmem : p ∈ ps) (hclear : ∀ p ∈ ps, a.Clear c p)
    (hapart : ps.Pairwise Placement.Apart) {signature : Option Signature}
    (hsig : p.role = .primary → signature = p.signatureOf? C) :
    p.Passes a (ps.foldl (Chip.load a C) c) signature := by
  have hlen := h.signatureLen
  have hchecksum := h.checksum
  have hread := Chip.read_load hmem hclear hapart (length_payloadOf (.inr h.whole))
  rw [← signatureOf_append] at hchecksum
  unfold Passes checksumIn
  rw [hread]
  cases hrole : p.role with
  | primary =>
    obtain ⟨s, hs, hbytes⟩ := h.signatureOf hrole
    rw [hsig hrole, hs]
    refine ⟨fun _ _ => rfl, ?_⟩
    dsimp only
    rw [hbytes, Checksum.add_of]
    exact hchecksum
  | secondary =>
    rw [hrole] at hlen
    have hnone : p.signatureOf C = [] := by rw [Placement.signatureOf, hlen, List.take_zero]
    rw [hnone, List.nil_append] at hchecksum
    refine ⟨Role.noConfusion, ?_⟩
    cases signature <;> exact hchecksum

/-- When the payloads are there, the place of the signature is still erased. -/
theorem writeRefusal_eq_none (h : p.Ready a size C) (hrole : p.role = .primary) (hmem : p ∈ ps)
    (hclear : ∀ p ∈ ps, a.Clear c p) (hapart : ps.Pairwise Placement.Apart) {start : Word}
    (hstart : p.regionStart? = some start) {c' : Chip}
    (hsame : (ps.foldl (Chip.load a C) c).Same c') (signature : Signature) :
    c'.writeRefusal (start.toNat - a.base.toNat) signature.bytes = none := by
  have hlen := h.signatureLen
  have hdest := regionStart?_eq_some.1 hstart
  have hbase := (hclear p hmem).base_le
  have hwithin := (hclear p hmem).within
  have hsize : c'.size = c.size := hsame.size.trans (Chip.size_load ps c)
  have hbytes := signature.length_bytes
  rw [hrole] at hlen
  simp only [Signature.length] at hlen
  refine Chip.writeRefusal_eq_none (by omega) fun i hlo hhi => ?_
  have hspans : p.Spans (a.base.toNat + i) := by
    constructor <;> omega
  have hnone : ∀ p' ∈ ps, ¬p'.Loads (a.base.toNat + i) := by
    intro p' hp' hloads
    by_cases heq : p' = p
    · subst heq
      have hbelow := hloads.1
      omega
    · exact hapart.forall hp' hmem heq _ ⟨hloads.spans, hspans⟩
  rw [hsame.byte, Chip.byte_load (by omega) hclear hapart hnone]
  exact (hclear p hmem).erased i hspans

end Placement.Ready

/-! ## Installing -/

namespace Attempt

/-- The signature is written to bytes that are still erased. -/
theorem finish_ok (a : Attempt) {plan : Plan} {s : Summary} {b : Board} {signature : Signature}
    {address : Word} {offset : Nat} (hs : s.signature = some signature)
    (haddress : plan.bankAddress? = some address) (ho : a.aperture.offset address = .ok offset)
    (hf : b.Faultless) (hh : a.aperture.held = false)
    (hr : b.chip.writeRefusal offset signature.bytes = none) :
    Ends (a.finish .container plan s) b fun o _ => o = .ok () := by
  unfold finish
  simp only [hs]
  unfold Board.commit
  simp only [haddress]
  refine (Aperture.write_ok hf.chip hh ho hr).bind (fun _ b₁ hwritten => ?_) fun e b₁ hfailed => ?_
  · obtain ⟨_, _, hstore⟩ := hwritten
    have hf₁ := hstore.faultless hf.store
    refine (Board.writeSlot_ends hf₁.plain _ _).mono fun o b₂ hset => ?_
    cases o with
    | ok _ => rfl
    | error e => exact absurd hf₁ hset.2.2.2.2
  · cases hfailed.1

/-- With the images in flash the attempt can be finished: the place of the signature is free. -/
theorem Delivered.finish_ok {a : Attempt} {plan : Plan} {C : Bytes} {c : Chip} {s : Summary}
    {r : Rig σ} {b : Board} {size : Nat} (h : a.Delivered C plan c s r) (hw : plan.WellFormed)
    (hapart : plan.placements.Pairwise Placement.Apart)
    (hready : ∀ p ∈ plan.placements, p.Ready a.aperture size C)
    (hb : r.board.Same b) : Ends (a.finish .container plan s) b fun o _ => o = .ok () := by
  have hnoted := (Plan.brought_eq_ok h.brought hw.roles).1
  obtain ⟨primary, hfind⟩ := hw.primary
  have hmem : primary ∈ plan.placements := List.mem_of_find?_eq_some hfind
  have hrole : primary.role = .primary := by simpa using List.find?_some hfind
  have hprimary := hready primary hmem
  obtain ⟨signature, hsig, _⟩ := hprimary.signatureOf hrole
  have hsigned := ((hnoted primary hmem).1.signature hrole).trans hsig
  obtain ⟨start, hstart, hoffers⟩ := hprimary.region
  have haddress : plan.bankAddress? = some start :=
    (Plan.bankAddress?_of_primary hfind).trans hstart
  have ho : a.aperture.offset start = .ok (start.toNat - a.aperture.base.toNat) :=
    Aperture.offset_eq_ok.2 (Nat.add_sub_cancel' hoffers.base_le)
  exact a.finish_ok hsigned haddress ho (hb.faultless h.faultless) h.held
    (hprimary.writeRefusal_eq_none hrole hmem h.clear hapart hstart (h.chip.trans hb.chip)
      signature)

variable [Link σ]

/-- A plan whose images are all ready is carried out. -/
theorem install_succeeds (a : Attempt) {plan : Plan} {r : Rig σ} {C : Bytes}
    (hserves : Link.Serves r.link (C.drop plan.streamStart.toNat))
    (hq : plan.streamStart.toNat ≤ C.length) (hbuffer : r.buffer ≠ []) (hf : r.board.Faultless)
    (hh : a.aperture.held = false) (hw : plan.WellFormed)
    (hapart : plan.placements.Pairwise Placement.Apart)
    (hready : ∀ p ∈ plan.placements, p.Ready a.aperture r.board.chip.size C) :
    Succeeds (a.install .container plan) r fun _ _ => True := by
  have herased : Succeeds (Rig.onBoard (Board.eraseTargets a.aperture plan.placements)) r
      fun _ r₁ => a.Erased plan r r₁ := by
    have hok := Board.eraseTargets_ok hf.chip hh fun p hp => (hready p hp).region
    exact (a.erase_yields hf hw).succeeds
      (.onBoard (.of_ends hok (fun _ _ _ => trivial) fun _ _ h => nomatch h))
  unfold install
  refine herased.during.bind fun _ r₁ h₁ => ?_
  have hdelivered : Succeeds (Rig.transfer a.aperture plan) r₁
      fun s r₂ => a.Delivered C plan r₁.board.chip s r₂ := by
    obtain ⟨s, hs⟩ := Plan.brought_ok (C := C) (q := plan.streamStart.toNat) (s := {})
      fun p hp => (hready p hp).whole
    exact .of_ends (h₁.transfer_ends hserves hq hbuffer (fun p hp => (hready p hp).addressed) hw
      hapart) (fun s _ h => h.2 s rfl) fun _ _ h => nomatch h.1.trans hs
  refine hdelivered.during.bind fun s r₂ h₂ => ?_
  have hnoted := (Plan.brought_eq_ok h₂.brought hw.roles).1
  have hpass : ∀ p ∈ plan.placements, p.Passes a.aperture
      (plan.placements.foldl (Chip.load a.aperture C) r₁.board.chip) s.signature :=
    fun p hp => (hready p hp).passes hp h₂.clear hapart (hnoted p hp).1.signature
  have hverified : Succeeds (Rig.verify a.aperture s plan.placements) r₂
      fun _ r₃ => r₂.board.Same r₃.board := by
    refine .of_ends (h₂.verify_ends hw) (fun _ _ h => h.1) fun _ _ h => ?_
    obtain ⟨_, he⟩ | ⟨hno, _⟩ := h.2
    · cases he
    · exact hno hpass
  refine hverified.during.bind fun _ r₃ h₃ => ?_
  have hdone := h₂.finish_ok hw hapart hready h₃
  exact .during (.onBoard (.of_ends hdone (fun _ _ _ => trivial) fun _ _ h => nomatch h))

end Attempt

/-! ## Planning -/

theorem Rig.headerBlock_ok {capacity d : Nat} {C : Bytes} (hroom : RoomFor capacity C)
    (hlen : Prologue.length ≤ C.length) (hd : Prologue.declared C = .ok d) :
    headerBlock capacity C = .ok (C.take d) := by
  have hfits := hroom.2 d hd
  rw [headerBlock, if_neg (Nat.not_lt.2 hroom.1), if_neg (Nat.not_lt.2 hlen), hd]
  exact if_neg (Nat.not_lt.2 hfits)

/-- A container begins behind its file info, if there is one. -/
theorem Config.stream_append (c : Config) {info : Bytes}
    (hinfo : info.length = if c.expectFileInfo then FileInfo.length else 0) (C : Bytes) :
    c.stream .container (info ++ C) = C := by
  simp only [stream]
  by_cases hexpect : c.expectFileInfo = true
  · rw [if_pos hexpect] at hinfo ⊢
    exact List.drop_left' hinfo
  · rw [if_neg hexpect] at hinfo ⊢
    rw [List.eq_nil_of_length_eq_zero hinfo, List.nil_append]

/-- An address that one device has for an image, every device has that holds the same. -/
theorem Config.resolve_succeeds (c : Config) {a : Aperture} {running : Bank} {h : ImageHeader}
    {b b₁ b' : Board} (hs : b.Same b₁) (hf : b.Faultless)
    (ht : c.targetAddress a running.other h.imageLen b = .ok h.flashAddress b') :
    Succeeds (c.resolve a running h) b₁ fun v _ => v = h.flashAddress := by
  have halike := Board.Congruent.targetAddress c a running.other h.imageLen b b₁ hs hf
  obtain ⟨v, t, t₁, hx, hx₁, _⟩ | ⟨e, t, t₁, hx, _⟩ := halike.cases
  · cases ht.symm.trans hx
    refine ⟨h.flashAddress, t₁, bind_eq_ok.2 ⟨h.flashAddress, t₁, hx₁, ?_⟩, rfl⟩
    rw [if_neg (not_not.2 rfl)]
    rfl
  · cases ht.symm.trans hx

theorem Placement.ofPrimary_ok {h : ImageHeader} {address : Word}
    (hlen : Signature.length ≤ h.imageLen.toNat)
    (haddress : address.toNat + Signature.length < UInt32.size) :
    ∃ p, ofPrimary h address = .ok p := by
  have hlt := h.imageLen.toNat_lt_size
  have hsig : (UInt32.ofNat Signature.length).toNat = Signature.length := rfl
  have hpayload : h.imageLen.minus? (.ofNat Signature.length) =
      some (.ofNat (h.imageLen.toNat - Signature.length)) := by
    rw [Word.minus?_eq_some, hsig, UInt32.toNat_ofNat_of_lt' (by omega)]
    omega
  have hdest : address.plus? (.ofNat Signature.length) =
      some (.ofNat (address.toNat + Signature.length)) := by
    rw [Word.plus?_eq_some, hsig, UInt32.toNat_ofNat_of_lt' haddress]
  unfold ofPrimary
  simp only [hpayload, hdest]
  exact ⟨_, rfl⟩

theorem Placement.fits_ofPrimary {h : ImageHeader} {address : Word} {p : Placement}
    (hp : ofPrimary h address = .ok p) (hstop : h.stop < UInt32.size) : p.Fits := by
  obtain ⟨_, hsig, _, _, _, hregion⟩ := ofPrimary_eq_ok hp
  have hdest := regionStart?_eq_some.1 hregion
  refine ⟨?_, ?_, ?_⟩
  · rw [hsig]
    exact Nat.le_refl _
  · omega
  · rw [streamStop_ofPrimary hp]
    exact hstop

/-- Images behind the header block that do not overlap can be brought into order. -/
theorem Plan.ofTarget_ok {t : TargetHeader} {bank : Bank} {address secondaryAddress : Word}
    {start : Nat} {primary : Placement} (hstart : t.blockLen = .ok start)
    (hlt : start < UInt32.size) (hp : Placement.ofPrimary t.primary address = .ok primary)
    (hprimary : start ≤ t.primary.offset.toNat ∧ t.primary.stop < UInt32.size)
    (hsecondary : ∀ s, t.secondary = some s → (start ≤ s.offset.toNat ∧ s.stop < UInt32.size) ∧
      t.primary.Apart s) :
    ∃ plan, ofTarget t bank address secondaryAddress = .ok plan := by
  obtain ⟨_, hsig, hoffset, _, hspan, _⟩ := Placement.ofPrimary_eq_ok hp
  have hword : Word.ofNat? start = some (.ofNat start) := if_pos hlt
  have hvalue : (UInt32.ofNat start).toNat = start := UInt32.toNat_ofNat_of_lt' hlt
  have hstop := Placement.streamStop_ofPrimary hp
  have hfits := Placement.fits_ofPrimary hp hprimary.2
  have hchecked : ∀ ps : List Placement, (∀ p ∈ ps, p.Fits) → Ordered start ps →
      ∃ plan, validated ⟨ps, .ofNat start, bank⟩ = .ok plan := by
    intro ps hps hordered
    rw [← hvalue] at hordered
    exact ⟨_, validated_ok hps hordered⟩
  unfold ofTarget
  rw [hstart]
  simp only [Except.mapError, hword, hp, bind, Except.bind]
  cases hs : t.secondary with
  | none =>
    exact hchecked [primary] (by simpa using hfits) ⟨hoffset ▸ hprimary.1, trivial⟩
  | some s =>
    obtain ⟨⟨hbehind, hend⟩, hapart⟩ := hsecondary s hs
    have hsfits : (Placement.ofSecondary s secondaryAddress).Fits :=
      ⟨Nat.zero_le _, Nat.zero_le _, hend⟩
    have hsstop : (Placement.ofSecondary s secondaryAddress).streamStop = s.stop := rfl
    have hlong : t.primary.offset.toNat < t.primary.stop := by
      rw [ImageHeader.stop, ← hspan, Placement.span, hsig]
      exact Nat.lt_add_of_pos_right (Nat.lt_of_lt_of_le (by decide) (Nat.le_add_left _ _))
    -- The primary image is not empty, so the one that starts first ends first.
    unfold ImageHeader.Apart at hapart
    have hsstart : s.offset.toNat ≤ s.stop := Nat.le_add_right _ _
    dsimp only
    split
    · rename_i hfirst
      rw [UInt32.le_iff_toNat_le, hoffset] at hfirst
      change s.offset.toNat ≤ t.primary.offset.toNat at hfirst
      refine hchecked _ (by simpa using ⟨hsfits, hfits⟩) ⟨hbehind, ?_, trivial⟩
      rw [hsstop, hoffset]
      omega
    · rename_i hlast
      rw [UInt32.le_iff_toNat_le, hoffset] at hlast
      change ¬s.offset.toNat ≤ t.primary.offset.toNat at hlast
      refine hchecked _ (by simpa using ⟨hfits, hsfits⟩) ⟨hoffset ▸ hprimary.1, ?_, trivial⟩
      rw [hstop]
      change t.primary.stop ≤ s.offset.toNat
      omega

namespace Attempt

section
variable [Link σ]

theorem planBlock_succeeds (a : Attempt) {r : Rig σ} {b b' : Board} {C : Bytes} {t : TargetHeader}
    {plan : Plan} (hserves : Link.Serves r.link C) (hb : b.Same r.board) (hf : b.Faultless)
    (hroom : Rig.RoomFor r.buffer.length C)
    (hparse : TargetHeader.parse C a.running.other.imageTag = .ok t)
    (htarget : a.config.targetAddress a.aperture a.running.other t.primary.imageLen b =
      .ok t.primary.flashAddress b')
    (hplan : Plan.ofTarget t a.running.other t.primary.flashAddress a.config.secondaryAddress =
      .ok plan) :
    Succeeds a.planBlock r fun v _ => v = (plan, t) := by
  obtain ⟨d, hd, _, hle⟩ := TargetHeader.blockLen_of_parse hparse
  have hlong := Nat.le_trans (Prologue.length_le_declared hd) hle
  have hblock := Rig.headerBlock_ok hroom hlong hd
  have hreceived : Succeeds Rig.receiveHeader r
      fun block r₁ => block = C.take d ∧ b.Same r₁.board := by
    refine .of_ends (Rig.receiveHeader_ends hserves) (fun block r₁ h => ?_)
      fun _ _ h => nomatch h.1.trans hblock
    exact ⟨Except.ok.inj (h.1.trans hblock), hb.trans h.2.1⟩
  unfold planBlock
  refine hreceived.during.bind fun block r₁ hread => ?_
  obtain ⟨rfl, hb₁⟩ := hread
  have hparsed : (TargetHeader.parse (C.take d) a.running.other.imageTag).mapError
      UpdateError.ofContainer = .ok t := by
    rw [TargetHeader.parse_take hd hlong, hparse]
    rfl
  refine Succeeds.bind (P := fun v r₂ => v = t ∧ r₂ = r₁)
    (.during (.ofExcept hparsed ⟨rfl, rfl⟩)) fun v r₂ hv => ?_
  obtain ⟨rfl, rfl⟩ := hv
  refine Succeeds.bind (P := fun address _ => address = v.primary.flashAddress)
    (.during (.onBoard (a.config.resolve_succeeds hb₁ hf htarget))) fun address r₃ hresolved => ?_
  subst hresolved
  exact Succeeds.bind (P := fun v _ => v = plan) (.during (.ofExcept hplan rfl))
    fun _ _ hv => .pure (by rw [hv])

theorem plan_container_succeeds (a : Attempt) {r : Rig σ} {b' : Board} {D : Bytes}
    {t : TargetHeader} {plan : Plan} (hserves : Link.Serves r.link D) (hf : r.board.Faultless)
    (hinfo : a.config.expectFileInfo = true → FileInfo.length ≤ D.length)
    (hroom : Rig.RoomFor r.buffer.length (a.config.stream .container D))
    (hparse : TargetHeader.parse (a.config.stream .container D) a.running.other.imageTag = .ok t)
    (htarget : a.config.targetAddress a.aperture a.running.other t.primary.imageLen r.board =
      .ok t.primary.flashAddress b')
    (hplan : Plan.ofTarget t a.running.other t.primary.flashAddress a.config.secondaryAddress =
      .ok plan) :
    Succeeds (a.plan .container) r fun v _ => v = (plan, some t) := by
  have hcontainer : Succeeds a.planContainer r fun v _ => v = (plan, t) := by
    rw [planContainer_eq]
    simp only [Config.stream] at hroom hparse
    by_cases hexpect : a.config.expectFileInfo = true
    · rw [if_pos hexpect] at hroom hparse ⊢
      have hreceived : Succeeds FileInfo.receive r fun _ r₁ => r.board.Same r₁.board ∧
          r₁.buffer = r.buffer ∧ Link.Serves r₁.link (D.drop FileInfo.length) := by
        refine .of_ends (FileInfo.receive_ends hserves) (fun _ r₁ h => ⟨h.1, h.2.1, h.2.2.1⟩)
          fun _ _ h => ?_
        rw [if_neg (Nat.not_lt.2 (hinfo hexpect))] at h
        cases h.2.2.2
      refine hreceived.during.bind fun _ r₁ h => ?_
      obtain ⟨hb, hbuf, hserves₁⟩ := h
      exact a.planBlock_succeeds hserves₁ hb hf (hbuf ▸ hroom) hparse htarget hplan
    · rw [if_neg hexpect] at hroom hparse ⊢
      exact a.planBlock_succeeds hserves (.refl _) hf hroom hparse htarget hplan
  exact hcontainer.bind fun _ _ hv => .pure (by rw [hv])

end

end Attempt

/-! ## Packed containers -/

theorem ImageHeader.Locates.checksum_imageIn {C : Bytes} {recordLen : Word} {image : ImageSpec}
    {h : ImageHeader} (hl : h.Locates C recordLen image) :
    Checksum.of (h.imageIn C) = h.checksum := by
  rw [hl.checksum, ← hl.payload]
  rfl

/-- The flash byte belongs to the image, at an address. -/
def ImageSpec.Fills (image : ImageSpec) (address : Word) (n : Nat) : Prop :=
  address.toNat ≤ n ∧ n < address.toNat + image.payload.length

/-- Flash has the bytes, from an address on. -/
def Aperture.Shows (a : Aperture) (c : Chip) (address : Word) (x : Bytes) : Prop :=
  ∃ offset, a.offset address = .ok offset ∧ offset + x.length ≤ c.size ∧
    c.cells.read offset x.length = x

/-- What the container has of an image is what was packed. -/
theorem Aperture.Holds.shows {a : Aperture} {c : Chip} {C : Bytes} {recordLen address : Word}
    {image : ImageSpec} {h : ImageHeader} (hholds : a.Holds c C h address)
    (hl : h.Locates C recordLen image) : a.Shows c address image.payload := by
  obtain ⟨offset, ho, hwithin, hread⟩ := hholds.flash
  have himage : h.imageIn C = image.payload := hl.payload
  rw [hl.imageLen] at hwithin hread
  exact ⟨offset, ho, hwithin, hread.trans himage⟩

namespace Attempt

/-- The device has a place for the image that is packed for the bank that does not run, which is
linked for that place, and for the secondary image. -/
structure Suits (a : Attempt) (board : Board) (b : Builder) (image : ImageSpec) : Prop where
  packed : b.imageFor a.running.other.imageTag = some image
  signed : Signature.length ≤ image.payload.length
  linked : ∃ board', a.config.targetAddress a.aperture a.running.other
    (.ofNat image.payload.length) board = .ok image.flashAddress board'
  region : a.aperture.Offers board.chip.size image.flashAddress image.payload.length
  secondaryRegion : ∀ s, b.secondaryImage = some s →
    a.aperture.Offers board.chip.size a.config.secondaryAddress s.payload.length
  apart : ∀ s, b.secondaryImage = some s → ∀ n,
    ¬(image.Fills image.flashAddress n ∧ s.Fills a.config.secondaryAddress n)

/-- The plan for a packed container: its images are those that were packed, and they are ready. -/
structure Prepared (a : Attempt) (size : Nat) (b : Builder) (image : ImageSpec) (C : Bytes)
    (t : TargetHeader) (plan : Plan) : Prop where
  parsed : TargetHeader.parse C a.running.other.imageTag = .ok t
  planned : Plan.ofTarget t a.running.other t.primary.flashAddress a.config.secondaryAddress =
    .ok plan
  primary : ImageHeader.Locates C b.recordLen image t.primary
  secondary : ∀ image', b.secondaryImage = some image' →
    ∃ s, t.secondary = some s ∧ ImageHeader.Locates C b.recordLen image' s
  disjoint : ∀ s, t.secondary = some s → ∀ n,
    ¬(t.primary.Fills t.primary.flashAddress n ∧ s.Fills a.config.secondaryAddress n)
  ready : ∀ p ∈ plan.placements, p.Ready a.aperture size C

theorem Suits.prepared {a : Attempt} {board : Board} {b : Builder} {image : ImageSpec}
    {start total : Nat} {hs : List ImageHeader} (h : a.Suits board b image)
    (hfits : b.Fits start hs total) :
    ∃ t plan, a.Prepared board.chip.size b image (b.packed hs total) t plan := by
  have hbank : a.running.other.imageTag.isSecondary = false := by cases a.running <;> rfl
  obtain ⟨t, hparse, hmem, hlocates, hsecondary⟩ := hfits.finds hbank h.packed
  have hlen := hfits.length_packed
  have hwhole : ∀ header ∈ hs, header.stop ≤ (b.packed hs total).length := by
    intro header hheader
    rw [hlen]
    exact hfits.stop_le header hheader
  have hfound : ∀ s, t.secondary = some s → ∃ image', b.secondaryImage = some image' ∧ s ∈ hs ∧
      t.primary.Apart s ∧ ImageHeader.Locates (b.packed hs total) b.recordLen image' s :=
    fun s hs' => rel_some_right (hs' ▸ hsecondary)
  have hoffers : a.aperture.Offers board.chip.size t.primary.flashAddress
      t.primary.imageLen.toNat := by
    rw [hlocates.flashAddress, hlocates.imageLen]
    exact h.region
  have hroom : t.primary.flashAddress.toNat + Signature.length < UInt32.size := by
    have hlt := hoffers.stop_lt
    have hsectors := sectorSize_le_sectorsOf t.primary.imageLen.toNat
    simp only [sectorSize, Signature.length] at hsectors ⊢
    omega
  obtain ⟨primary, hprimary⟩ := Placement.ofPrimary_ok (hlocates.imageLen ▸ h.signed) hroom
  obtain ⟨d, hd, hblockLen, _⟩ := TargetHeader.blockLen_of_parse hparse
  cases hfits.declared_packed.symm.trans hd
  obtain ⟨plan, hplan⟩ : ∃ plan, Plan.ofTarget t a.running.other t.primary.flashAddress
      a.config.secondaryAddress = .ok plan := by
    refine Plan.ofTarget_ok hblockLen hfits.start_lt hprimary (hfits.behind _ hmem) fun s hs' => ?_
    obtain ⟨_, _, hsmem, hapart, _⟩ := hfound s hs'
    exact ⟨hfits.behind s hsmem, hapart⟩
  obtain ⟨_, _, _, primary', hprimary', _, hplacements⟩ := Plan.ofTarget_eq_ok hplan
  cases hprimary.symm.trans hprimary'
  refine ⟨t, plan, hparse, hplan, hlocates, fun image' himage' => ?_, fun s hs' n => ?_,
    fun p hp => ?_⟩
  · obtain ⟨s, hs', _, _, hs''⟩ := rel_some_left (himage' ▸ hsecondary)
    exact ⟨s, hs', hs''⟩
  · obtain ⟨image', himage', _, _, hs''⟩ := hfound s hs'
    have hapart := h.apart image' himage' n
    unfold ImageHeader.Fills
    rw [hlocates.flashAddress, hlocates.imageLen, hs''.imageLen]
    exact hapart
  · obtain rfl | ⟨s, hs', rfl⟩ := Plan.mem_placements hplacements hp
    · exact .of_primary hprimary hoffers (hwhole _ hmem) hlocates.checksum_imageIn
    · obtain ⟨image', himage', hsmem, _, hs''⟩ := hfound s hs'
      exact .of_secondary (hs''.imageLen ▸ h.secondaryRegion image' himage') (hwhole s hsmem)
        hs''.checksum_imageIn

variable [Link σ]

/-- A container is planned for which the device is prepared. -/
theorem Prepared.plan_ok {a : Attempt} {r : Rig σ} {b : Builder} {image : ImageSpec} {D : Bytes}
    {t : TargetHeader} {plan : Plan} (h : a.Prepared r.board.chip.size b image
      (a.config.stream .container D) t plan) (hserves : Link.Serves r.link D)
    (hf : r.board.Faultless)
    (hinfo : a.config.expectFileInfo = true → FileInfo.length ≤ D.length)
    (hroom : Rig.RoomFor r.buffer.length (a.config.stream .container D))
    (hlinked : ∃ board', a.config.targetAddress a.aperture a.running.other
      (.ofNat image.payload.length) r.board = .ok image.flashAddress board') :
    ∃ r₁, a.plan .container r = .ok (plan, some t) r₁ ∧
      a.PlannedFrom (a.config.stream .container D) r (plan, t) r₁ ∧ r₁.board.Faultless ∧
      r₁.board.chip.size = r.board.chip.size := by
  have hp := hf.store.plain
  have himageLen : t.primary.imageLen = .ofNat image.payload.length := by
    rw [← h.primary.imageLen, UInt32.ofNat_toNat]
  obtain ⟨board', htarget⟩ := hlinked
  rw [← himageLen, ← h.primary.flashAddress] at htarget
  obtain ⟨_, r₁, hx, rfl⟩ :=
    a.plan_container_succeeds hserves hf hinfo hroom h.parsed htarget h.planned
  obtain ⟨t', hplanned⟩ := a.plan_container_yields hserves hp _ _ hx
  obtain rfl : t = t' := Except.ok.inj (h.parsed.symm.trans hplanned.parsed)
  have hsettled : a.config.Settled .container r.board true r₁.board :=
    (a.plan_settled .container hp).ok hx
  obtain ⟨_, _, hd, _⟩ := hsettled
  exact ⟨r₁, hx, hplanned, hd.faultless hf, hd.size⟩

/-- Every container that the builder packs can be installed on a device that it suits, in whatever
portions an honest connection brings it. If no call fails, and nobody else holds the flash, the
attempt ends with a reboot into the other bank, and both images are in flash. -/
theorem run_packed_installs (a : Attempt) {b : Builder} {out out' info : Bytes} {total : Nat}
    {image : ImageSpec} {r : Rig σ} (hflow : a.config.flow = .container)
    (hh : a.aperture.held = false) (hf : r.board.Faultless)
    (hbuild : b.build out = .ok total out')
    (hinfo : info.length = if a.config.expectFileInfo then FileInfo.length else 0)
    (hserves : Link.Serves r.link (info ++ out'.take total))
    (hbuffer : Prologue.length ≤ r.buffer.length)
    (hroom : ∀ blockLen, b.blockLen = .ok blockLen → blockLen ≤ r.buffer.length)
    (hsuits : a.Suits r.board b image) :
    ∃ r', a.run r = (⟨.commitSuccess, .reboot a.running.other⟩, r') ∧
      a.aperture.Shows r'.board.chip image.flashAddress image.payload ∧
      ∀ s, b.secondaryImage = some s →
        a.aperture.Shows r'.board.chip a.config.secondaryAddress s.payload := by
  obtain ⟨start, hs, hfits, hlen, rfl⟩ := Builder.build_eq_ok hbuild
  have hC : (out.overlay 0 (b.packed hs total)).take total = b.packed hs total := by
    have htake := Bytes.take_overlay_zero out (b.packed hs total)
    rwa [hfits.length_packed] at htake
  have hstream := a.config.stream_append hinfo (b.packed hs total)
  rw [hC] at hserves
  obtain ⟨t, plan, hprepared⟩ := hsuits.prepared hfits
  have hroomy : Rig.RoomFor r.buffer.length (b.packed hs total) := by
    refine ⟨hbuffer, fun d hd => ?_⟩
    cases hfits.declared_packed.symm.trans hd
    exact hroom start hfits.blockLen
  rw [← hstream] at hprepared hroomy
  obtain ⟨r₁, hx, hplanned, hf₁, hsize⟩ := hprepared.plan_ok hserves hf (fun hexpect => by
    rw [if_pos hexpect] at hinfo
    rw [List.length_append, hinfo]
    exact Nat.le_add_right _ _) hroomy hsuits.linked
  -- The plan is carried out.
  obtain ⟨hw, hbank, _, primary, hprimary, _, hplacements⟩ := Plan.ofTarget_eq_ok hprepared.planned
  have hapart := Plan.apart_of_disjoint hprimary hplacements hprepared.disjoint
  have hinstalled := a.install_yields hplanned.serves hplanned.streamStart_le hplanned.buffer_ne
    hf₁ (fun p hp _ => (hprepared.ready p hp).addressed) hw hapart
  obtain ⟨_, r', hy, hinstalled⟩ := hinstalled.succeeds (a.install_succeeds hplanned.serves
    hplanned.streamStart_le hplanned.buffer_ne hf₁ hh hw hapart
    fun p hp => hsize ▸ hprepared.ready p hp)
  obtain ⟨c, s, signature, address, offset, hi⟩ := hinstalled
  obtain ⟨hholds, hsecondary⟩ := hi.holds hplanned hprepared.disjoint
  refine ⟨r', ?_, hprepared.primary.flashAddress ▸ hholds.shows hprepared.primary,
    fun image' himage' => ?_⟩
  · rw [← hbank]
    simp only [run, runFlow, hflow, hx, hy]
  · obtain ⟨s', hs', hlocates⟩ := hprepared.secondary image' himage'
    exact (hsecondary s' hs').shows hlocates

end Attempt

namespace Sample

/-- Packs the images of the container. -/
def builder : Builder where
  version := 1
  images := [⟨.ota1, 0, primary, none⟩, ⟨.rdp, 0x2000, secondary, none⟩]

/-- The sample has a sector for each of the two images, and one between them. -/
theorem suits : attempt.Suits (rig container).board builder ⟨.ota1, 0, primary, none⟩ where
  packed := rfl
  signed := by decide
  linked := answer?_eq_some.1 (by decide)
  region := by constructor <;> decide
  secondaryRegion := by
    intro s hs
    cases hs
    constructor <;> decide
  apart := by
    rintro s hs n ⟨⟨_, hhi⟩, ⟨hlo, _⟩⟩
    cases hs
    have hfirst : n < 0 + 10 := hhi
    have hsecond : 0x2000 ≤ n := hlo
    omega

end Sample

/-- What is packed into 80 bytes can be installed. -/
theorem Attempt.run_packed_installs_sample :
    ∃ out' r', Sample.builder.build (List.replicate 80 erasedByte) = .ok 69 out' ∧
      out'.take 69 = Sample.container ∧
      Link.Serves (Sample.rig Sample.container).link Sample.container ∧
      (Sample.rig Sample.container).board.Faultless ∧
      Sample.attempt.Suits (Sample.rig Sample.container).board Sample.builder
        ⟨.ota1, 0, Sample.primary, none⟩ ∧
      Sample.attempt.run (Sample.rig Sample.container) = (⟨.commitSuccess, .reboot .bank1⟩, r') ∧
      Sample.attempt.aperture.Shows r'.board.chip 0 Sample.primary ∧
      Sample.attempt.aperture.Shows r'.board.chip 0x2000 Sample.secondary := by
  have hD : Link.Serves (Sample.rig Sample.container).link Sample.container :=
    Scripted.serves (by simp [Sample.rig]) rfl
  have hf : (Sample.rig Sample.container).board.Faultless :=
    ⟨fun _ _ => rfl, rfl, fun _ => rfl, fun _ => rfl⟩
  have hbuild : Sample.builder.build (List.replicate 80 erasedByte) =
      .ok 69 (Sample.container ++ List.replicate 11 erasedByte) := rfl
  have hroom : ∀ blockLen, Sample.builder.blockLen = .ok blockLen →
      blockLen ≤ (Sample.rig Sample.container).buffer.length := by
    intro blockLen h
    cases h
    decide
  have hinfo : ([] : Bytes).length =
      if Sample.attempt.config.expectFileInfo then FileInfo.length else 0 := rfl
  obtain ⟨r', hr, hprimary, hsecondary⟩ := Sample.attempt.run_packed_installs rfl rfl hf hbuild
    hinfo hD (by decide) hroom Sample.suits
  exact ⟨_, r', hbuild, rfl, hD, hf, Sample.suits, hr, hprimary, hsecondary _ rfl⟩

end DualBank
