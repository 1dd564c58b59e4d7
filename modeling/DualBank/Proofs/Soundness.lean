import DualBank.Proofs.Checks
import DualBank.Proofs.Frame
import DualBank.Proofs.Planning

/-! What a container that was installed leaves behind. The flash holds the images of the stream, the
signature included, at the addresses of the plan; all of them have the checksums of their records;
and the bank that did not run is the active one. -/
namespace DualBank

variable {σ : Type}

/-! ## What the loads leave in flash -/

/-- The flash byte belongs to the payload of the image. -/
def Placement.Loads (p : Placement) (n : Nat) : Prop :=
  p.destination.toNat ≤ n ∧ n < p.destination.toNat + p.payloadLen.toNat

theorem Placement.Loads.spans {p : Placement} {n : Nat} (h : p.Loads n) : p.Spans n :=
  ⟨Nat.le_trans (Nat.sub_le _ _) h.1, h.2⟩

namespace Chip

variable {a : Aperture} {C : Bytes}

theorem size_load (ps : List Placement) (c : Chip) :
    (ps.foldl (load a C) c).size = c.size := by
  induction ps generalizing c with
  | nil => rfl
  | cons p ps ih => rw [List.foldl_cons, ih]; rfl

theorem faultless_load {ps : List Placement} {c : Chip} (h : c.Faultless) :
    (ps.foldl (load a C) c).Faultless := by
  induction ps generalizing c with
  | nil => exact h
  | cons p ps ih => exact ih (c := c.load a C p) h

/-- Loads leave alone what is no payload of theirs. -/
theorem byte_load {ps : List Placement} {c : Chip} {i : Nat} (hi : i < c.size)
    (hc : ∀ p ∈ ps, a.Clear c p) (hp : ps.Pairwise Placement.Apart)
    (hout : ∀ p ∈ ps, ¬p.Loads (a.base.toNat + i)) :
    (ps.foldl (load a C) c).byte i = c.byte i := by
  induction ps generalizing c with
  | nil => rfl
  | cons p ps ih =>
    obtain ⟨hpapart, hpsapart⟩ := List.pairwise_cons.1 hp
    have hcp := hc p List.mem_cons_self
    have hlen : (p.payloadOf C).length ≤ p.payloadLen.toNat := List.length_take_le _ _
    have hbase := hcp.base_le
    have hrest := ih (c := c.load a C p) hi (fun p' hp' =>
      (hc p' (List.mem_cons_of_mem _ hp')).load hcp (hpapart p' hp') C) hpsapart
      fun p' hp' => hout p' (List.mem_cons_of_mem _ hp')
    rw [List.foldl_cons, hrest, load, byte_preset_of_not hi]
    rintro ⟨hlo, hhi⟩
    refine hout p List.mem_cons_self ⟨?_, ?_⟩ <;> omega

/-- Each image reads as the stream has it. -/
theorem read_load {ps : List Placement} {c : Chip} {p : Placement} (hmem : p ∈ ps)
    (hc : ∀ p ∈ ps, a.Clear c p) (hp : ps.Pairwise Placement.Apart)
    (hfull : (p.payloadOf C).length = p.payloadLen.toNat) :
    (ps.foldl (load a C) c).cells.read (p.destination.toNat - a.base.toNat) p.payloadLen.toNat =
      p.payloadOf C := by
  induction ps generalizing c with
  | nil => cases hmem
  | cons p' ps ih =>
    obtain ⟨hpapart, hpsapart⟩ := List.pairwise_cons.1 hp
    have hcp := hc p' List.mem_cons_self
    have hclear : ∀ p ∈ ps, a.Clear (c.load a C p') p := fun p'' hp'' =>
      (hc p'' (List.mem_cons_of_mem _ hp'')).load hcp (hpapart p'' hp'') C
    rcases List.mem_cons.1 hmem with rfl | hmem
    · have hbase := hcp.base_le
      have hwithin := hcp.within
      have hkept : (ps.foldl (load a C) (c.load a C p)).cells.read
          (p.destination.toNat - a.base.toNat) p.payloadLen.toNat =
          (c.load a C p).cells.read (p.destination.toNat - a.base.toNat) p.payloadLen.toNat := by
        refine read_congr fun i hlo hhi => byte_load (c := c.load a C p) ?_ hclear hpsapart ?_
        · change i < c.size
          omega
        · intro p' hp' hloads
          refine hpapart p' hp' _ ⟨⟨?_, ?_⟩, hloads.spans⟩ <;> omega
      rw [List.foldl_cons, hkept, ← hfull]
      exact read_preset (by rw [hfull]; omega)
    · exact ih hmem hclear hpsapart

end Chip

/-! ## What was noted of the images -/

/-- The summary has the length, and of a primary image the signature. -/
def Summary.Noted (s : Summary) (C : Bytes) (p : Placement) : Prop :=
  match p.role with
  | .primary => s.primaryWritten = p.payloadLen ∧ s.signature = p.signatureOf? C
  | .secondary => s.secondaryWritten = p.payloadLen

theorem Summary.Noted.matches {s : Summary} {C : Bytes} {p : Placement} (h : s.Noted C p) :
    s.Matches p := by
  unfold Summary.Noted at h
  unfold Summary.Matches
  cases hr : p.role <;> rw [hr] at h
  · exact h.1
  · exact h

theorem Summary.Noted.signature {s : Summary} {C : Bytes} {p : Placement} (h : s.Noted C p)
    (hr : p.role = .primary) : s.signature = p.signatureOf? C := by
  unfold Summary.Noted at h
  rw [hr] at h
  exact h.2

theorem Summary.noted_take (s : Summary) (C : Bytes) (p : Placement) : (s.take C p).Noted C p := by
  unfold Summary.Noted Summary.take
  cases p.role
  · exact ⟨rfl, rfl⟩
  · rfl

theorem Summary.Noted.take {s : Summary} {C : Bytes} {p p' : Placement} (h : s.Noted C p)
    (hr : p'.role ≠ p.role) : (s.take C p').Noted C p := by
  unfold Summary.Noted at h ⊢
  unfold Summary.take
  cases hp : p.role <;> cases hp' : p'.role <;> rw [hp] at h <;> simp_all

/-- After a transfer all images are noted, and the stream reaches to the end of each. -/
theorem Plan.brought_eq_ok {C : Bytes} {q : Nat} {s s' : Summary} {ps : List Placement}
    (h : brought C q s ps = .ok s') (hr : ps.Pairwise fun p p' => p.role ≠ p'.role) :
    (∀ p ∈ ps, s'.Noted C p ∧ (p.span = 0 ∨ p.streamStop ≤ C.length)) ∧
      ∀ p, (∀ p' ∈ ps, p'.role ≠ p.role) → s.Noted C p → s'.Noted C p := by
  induction ps generalizing q s with
  | nil =>
    cases h
    refine ⟨by simp, fun p _ hp => ?_⟩
    unfold Summary.Noted at hp ⊢
    exact hp
  | cons p ps ih =>
    obtain ⟨hpr, hpsr⟩ := List.pairwise_cons.1 hr
    unfold brought at h
    by_cases hshort : p.span ≠ 0 ∧ C.length < p.streamStop
    · rw [if_pos hshort] at h
      cases h
    · rw [if_neg hshort] at h
      obtain ⟨hnoted, hkept⟩ := ih h hpsr
      constructor
      · intro p' hp'
        rcases List.mem_cons.1 hp' with rfl | hp'
        · exact ⟨hkept _ (fun p'' hp'' => (hpr p'' hp'').symm) (s.noted_take C _), by omega⟩
        · exact hnoted p' hp'
      · intro p' hp' hn
        exact hkept p' (fun p'' hp'' => hp' p'' (List.mem_cons_of_mem _ hp''))
          (hn.take (hp' p List.mem_cons_self))

/-! ## What an installation leaves in flash -/

namespace Attempt

/-- A container is finished by the signature that the transfer brought. -/
theorem finish_yields (a : Attempt) {plan : Plan} {s : Summary} {b : Board}
    (hp : b.store.Plain) : Yields (a.finish .container plan s) b fun _ b' =>
      ∃ signature address offset, s.signature = some signature ∧
        plan.bankAddress? = some address ∧ a.aperture.offset address = .ok offset ∧
        (b.chip.preset offset signature.bytes).Same b'.chip := by
  obtain ⟨e, hx⟩ | ⟨address, hb, ⟨hbare, _⟩ | ⟨signature, _, hs, hx⟩⟩ :=
    a.finish_cases .container plan s
  · rw [hx]
    intro v t hthrow
    cases hthrow
  · cases hbare
  · rw [hx]
    refine Yields.bind (Yields.of_ends (P := fun _ t => t.store.Plain ∧ ∃ offset,
      a.aperture.offset address = .ok offset ∧
      (b.chip.preset offset signature.bytes).Same t.chip)
      (a.aperture.write_does address signature.bytes b) fun _ t h => ?_) fun _ t ht => ?_
    · obtain ⟨hk, _⟩ | ⟨offset, fault, ho, hk, hd⟩ := h
      · cases hk
      · cases fault with
        | some e => cases hk
        | none => exact ⟨hd.plain hp, offset, ho, hd.replay.chip⟩
    · obtain ⟨hp₁, offset, ho, hchip⟩ := ht
      refine Yields.of_ends (Board.writeSlot_ends hp₁ _ _) fun _ b' hwritten => ?_
      exact ⟨signature, address, offset, hs, hb, ho, hwritten.1 ▸ hchip⟩

/-- The rig is ready for the transfer: the regions are erased, and the rest is as it was. -/
structure Erased (a : Attempt) (plan : Plan) (r r₁ : Rig σ) : Prop where
  link : r₁.link = r.link
  buffer : r₁.buffer = r.buffer
  faultless : r₁.board.Faultless
  size : r₁.board.chip.size = r.board.chip.size
  held : a.aperture.held = false
  clear : ∀ p ∈ plan.placements, a.aperture.Clear r₁.board.chip p

theorem erase_yields (a : Attempt) {plan : Plan} {r : Rig σ} (hf : r.board.Faultless)
    (hw : plan.WellFormed) :
    Yields (Rig.onBoard (Board.eraseTargets a.aperture plan.placements)) r
      fun _ r₁ => a.Erased plan r r₁ := by
  obtain ⟨p, hp⟩ := hw.primary
  have hne : plan.placements ≠ [] := List.ne_nil_of_mem (List.mem_of_find?_eq_some hp)
  refine Yields.onBoard (Yields.of_ends (Board.eraseTargets_clear a.aperture plan.placements
    r.board) fun _ b herased => ?_)
  obtain ⟨hst, hsz, hfl, _, hk⟩ := herased
  obtain ⟨hclear, hheld⟩ := hk rfl
  exact ⟨rfl, rfl, ⟨hfl hf.chip, hst.faultless hf.store⟩, hsz, hheld hne, hclear⟩

variable [Link σ]

/-- The payloads are in flash, in regions that the chip `c` had erased. -/
structure Delivered (a : Attempt) (C : Bytes) (plan : Plan) (c : Chip) (s : Summary)
    (r : Rig σ) : Prop where
  brought : Plan.brought C plan.streamStart.toNat {} plan.placements = .ok s
  clear : ∀ p ∈ plan.placements, a.aperture.Clear c p
  addressed : ∀ p ∈ plan.placements, p.Addressed
  chip : (plan.placements.foldl (Chip.load a.aperture C) c).Same r.board.chip
  faultless : r.board.Faultless
  held : a.aperture.held = false
  buffer : r.buffer ≠ []

theorem Erased.transfer_ends {a : Attempt} {plan : Plan} {r r₁ : Rig σ} {C : Bytes}
    (h : a.Erased plan r r₁) (hserves : Link.Serves r.link (C.drop plan.streamStart.toNat))
    (hq : plan.streamStart.toNat ≤ C.length) (hbuffer : r.buffer ≠ [])
    (hs : ∀ p ∈ plan.placements, p.Addressed) (hw : plan.WellFormed)
    (hapart : plan.placements.Pairwise Placement.Apart) :
    Ends (Rig.transfer a.aperture plan) r₁ fun o r₂ =>
      o = Plan.brought C plan.streamStart.toNat {} plan.placements ∧
      ∀ s, o = .ok s → a.Delivered C plan r₁.board.chip s r₂ := by
  refine (Rig.transfer_ends (h.link ▸ hserves) hq (h.buffer ▸ hbuffer) h.faultless h.held hs hw
    h.clear hapart).mono fun o r₂ htransferred => ?_
  obtain ⟨hbrought, hstore, hchip, hbuf⟩ := htransferred
  refine ⟨hbrought, fun s ho => ?_⟩
  subst ho
  exact ⟨hbrought.symm, h.clear, hs, hchip, ⟨hchip.faultless (Chip.faultless_load h.faultless.chip),
    hstore.faultless h.faultless.store⟩, h.held, hbuf rfl⟩

omit [Link σ] in
theorem Delivered.verify_ends {a : Attempt} {C : Bytes} {plan : Plan} {c : Chip} {s : Summary}
    {r : Rig σ} (h : a.Delivered C plan c s r) (hw : plan.WellFormed) :
    Ends (Rig.verify a.aperture s plan.placements) r fun o r' => r.board.Same r'.board ∧
      Plan.Judged a.aperture (plan.placements.foldl (Chip.load a.aperture C) c) s.signature
        plan.placements o := by
  have hnoted := (Plan.brought_eq_ok h.brought hw.roles).1
  have hsize : r.board.chip.size = c.size := h.chip.size.trans (Chip.size_load _ _)
  have hbase : ∀ p ∈ plan.placements, a.aperture.base.toNat ≤ p.destination.toNat := by
    intro p hp
    have := (h.clear p hp).base_le
    omega
  have hwithin : ∀ p ∈ plan.placements, p.destination.toNat + p.payloadLen.toNat ≤
      a.aperture.base.toNat + r.board.chip.size := by
    intro p hp
    rw [hsize]
    exact (h.clear p hp).within
  refine (Rig.verify_ends h.faultless.chip h.held h.addressed h.buffer hbase hwithin
    fun p hp => (hnoted p hp).1.matches).mono fun o r' hverified => ?_
  obtain ⟨hb, hjudged⟩ := hverified
  exact ⟨hb, hjudged.same h.chip⟩

/-- All images are in flash and have passed the check, and the signature is where the bank
starts. -/
structure Installed (a : Attempt) (C : Bytes) (plan : Plan) (c : Chip) (s : Summary)
    (signature : Signature) (address : Word) (offset : Nat) (c' : Chip) : Prop where
  brought : Plan.brought C plan.streamStart.toNat {} plan.placements = .ok s
  signed : s.signature = some signature
  bankAddress : plan.bankAddress? = some address
  bankOffset : a.aperture.offset address = .ok offset
  clear : ∀ p ∈ plan.placements, a.aperture.Clear c p
  passes : ∀ p ∈ plan.placements, p.Passes a.aperture
    (plan.placements.foldl (Chip.load a.aperture C) c) (some signature)
  chip : ((plan.placements.foldl (Chip.load a.aperture C) c).preset offset signature.bytes).Same c'

theorem install_yields (a : Attempt) {plan : Plan} {r : Rig σ} {C : Bytes}
    (hserves : Link.Serves r.link (C.drop plan.streamStart.toNat))
    (hq : plan.streamStart.toNat ≤ C.length) (hbuffer : r.buffer ≠ []) (hf : r.board.Faultless)
    (hs : ∀ p ∈ plan.placements, p.destination.toNat + p.payloadLen.toNat ≤
      a.aperture.base.toNat + r.board.chip.size → p.Addressed) (hw : plan.WellFormed)
    (hapart : plan.placements.Pairwise Placement.Apart) :
    Yields (a.install .container plan) r fun _ r' => ∃ c s signature address offset,
      a.Installed C plan c s signature address offset r'.board.chip := by
  unfold install
  refine (a.erase_yields hf hw).during.bind fun _ r₁ h₁ => ?_
  have hs₁ : ∀ p ∈ plan.placements, p.Addressed :=
    fun p hp => hs p hp (h₁.size ▸ (h₁.clear p hp).within)
  refine (Yields.of_ends (h₁.transfer_ends hserves hq hbuffer hs₁ hw hapart)
    fun s r₂ h => h.2 s rfl).during.bind fun s r₂ h₂ => ?_
  refine (Yields.of_ends (h₂.verify_ends hw) fun _ r₃ h => h).during.bind fun _ r₃ hverified => ?_
  obtain ⟨hb₃, hjudged⟩ := hverified
  refine Yields.during (Yields.onBoard fun v b hx => ?_)
  obtain ⟨signature, address, offset, hsig, hb, ho, hsame⟩ :=
    a.finish_yields (hb₃.store.faultless h₂.faultless.store).plain v b hx
  refine ⟨r₁.board.chip, s, signature, address, offset, h₂.brought, hsig, hb, ho, h₁.clear, ?_,
    ((h₂.chip.trans hb₃.chip).preset _ _).trans hsame⟩
  obtain ⟨hall, _⟩ | ⟨_, herror⟩ := hjudged
  · rw [← hsig]
    exact hall
  · cases herror

end Attempt

/-! ## What an image of a container is -/

namespace ImageHeader

/-- The bytes of the image, signature included. -/
def imageIn (h : ImageHeader) (C : Bytes) : Bytes := (C.drop h.offset.toNat).take h.imageLen.toNat

/-- The flash byte is one of the image's, at an address. -/
def Fills (h : ImageHeader) (address : Word) (n : Nat) : Prop :=
  address.toNat ≤ n ∧ n < address.toNat + h.imageLen.toNat

end ImageHeader

/-- The stream has the whole image, with the checksum of its record, and flash holds it. -/
structure Aperture.Holds (a : Aperture) (c : Chip) (C : Bytes) (h : ImageHeader)
    (address : Word) : Prop where
  whole : (h.imageIn C).length = h.imageLen.toNat
  checksum : Checksum.of (h.imageIn C) = h.checksum
  flash : ∃ offset, a.offset address = .ok offset ∧ offset + h.imageLen.toNat ≤ c.size ∧
    c.cells.read offset h.imageLen.toNat = h.imageIn C

theorem Placement.length_payloadOf {p : Placement} {C : Bytes}
    (h : p.span = 0 ∨ p.streamStop ≤ C.length) : (p.payloadOf C).length = p.payloadLen.toNat := by
  rw [payloadOf, List.length_take, List.length_drop]
  simp only [payloadStart, streamStop, span] at h ⊢
  omega

/-- Signature and payload are the image. -/
theorem Placement.signatureOf_append (p : Placement) (C : Bytes) :
    p.signatureOf C ++ p.payloadOf C = (C.drop p.streamOffset.toNat).take p.span := by
  rw [signatureOf, payloadOf, payloadStart, Bytes.take_drop_append, span, Nat.add_comm]

theorem Placement.fills_of_primary {h : ImageHeader} {address : Word} {p : Placement}
    (hp : ofPrimary h address = .ok p) {n : Nat} (hn : p.Spans n) : h.Fills address n := by
  obtain ⟨_, _, _, _, hspan, hstart⟩ := ofPrimary_eq_ok hp
  have hdest := regionStart?_eq_some.1 hstart
  obtain ⟨hlo, hhi⟩ := hn
  simp only [span] at hspan
  constructor <;> omega

theorem Placement.fills_of_secondary {s : ImageHeader} {address : Word} {n : Nat}
    (hn : (ofSecondary s address).Spans n) : s.Fills address n :=
  hn

/-- Images that share no flash are apart, whichever comes first. -/
theorem Plan.apart_of_disjoint {plan : Plan} {t : TargetHeader} {address secondaryAddress : Word}
    {primary : Placement} (hp : Placement.ofPrimary t.primary address = .ok primary)
    (hps : match t.secondary with
      | none => plan.placements = [primary]
      | some s =>
        plan.placements = [primary, .ofSecondary s secondaryAddress] ∨
        plan.placements = [.ofSecondary s secondaryAddress, primary])
    (hdisjoint : ∀ s, t.secondary = some s → ∀ n,
      ¬(t.primary.Fills address n ∧ s.Fills secondaryAddress n)) :
    plan.placements.Pairwise Placement.Apart := by
  cases hs : t.secondary with
  | none =>
    rw [hs] at hps
    rw [hps]
    exact List.pairwise_singleton _ _
  | some s =>
    rw [hs] at hps
    have hd := hdisjoint s hs
    rcases hps with hps | hps <;> rw [hps, List.pairwise_pair] <;> intro n ⟨h₁, h₂⟩
    · exact hd n ⟨Placement.fills_of_primary hp h₁, Placement.fills_of_secondary h₂⟩
    · exact hd n ⟨Placement.fills_of_primary hp h₂, Placement.fills_of_secondary h₁⟩

namespace Aperture

variable {a : Aperture} {c c' : Chip} {C : Bytes} {ps : List Placement} {p : Placement}
  {h : ImageHeader} {address : Word} {offset : Nat} {signature : Signature}

/-- The primary image, once its signature is written. -/
theorem holds_primary (hmem : p ∈ ps) (hclear : ∀ p ∈ ps, a.Clear c p)
    (hapart : ps.Pairwise Placement.Apart) (hfull : p.span = 0 ∨ p.streamStop ≤ C.length)
    (hp : Placement.ofPrimary h address = .ok p) (hsig : p.signatureOf? C = some signature)
    (hpass : p.Passes a (ps.foldl (Chip.load a C) c) (some signature))
    (ho : a.offset address = .ok offset)
    (hsame : ((ps.foldl (Chip.load a C) c).preset offset signature.bytes).Same c') :
    a.Holds c' C h address := by
  obtain ⟨hrole, hsiglen, hoffset, hexpected, hspan, hstart⟩ := Placement.ofPrimary_eq_ok hp
  have height : p.signatureLen.toNat = 8 := by rw [hsiglen]; rfl
  have hbytes : signature.bytes = p.signatureOf C := by
    rw [Placement.signatureOf?, if_pos (show p.signatureLen.toNat = Signature.length from height)]
      at hsig
    exact Signature.ofBytes?_eq_some.1 hsig
  have himage : h.imageIn C = signature.bytes ++ p.payloadOf C := by
    rw [hbytes, Placement.signatureOf_append, hspan, hoffset, ImageHeader.imageIn]
  have hpayload := Placement.length_payloadOf hfull
  have hread := Chip.read_load hmem hclear hapart hpayload
  have hlen : h.imageLen.toNat = 8 + p.payloadLen.toNat := by
    rw [← hspan, Placement.span, height, Nat.add_comm]
  have hbase := offset_eq_ok.1 ho
  have hdest := Placement.regionStart?_eq_some.1 hstart
  have hwithin := (hclear p hmem).within
  have hsize : c'.size = c.size := hsame.size.trans (Chip.size_load ps c)
  refine ⟨?_, ?_, offset, ho, by omega, ?_⟩
  · rw [himage, List.length_append, signature.length_bytes, hpayload, hlen]
  · have hsum := hpass.2
    simp only [Placement.checksumIn, hrole, hread] at hsum
    rw [himage, ← Checksum.add_of, hsum, hexpected]
  · have hkept : c'.cells.read offset h.imageLen.toNat =
        ((ps.foldl (Chip.load a C) c).preset offset signature.bytes).cells.read offset
          h.imageLen.toNat := Chip.read_congr fun i _ _ => by rw [hsame.byte]
    have hsigned : offset + signature.bytes.length ≤ (ps.foldl (Chip.load a C) c).size := by
      rw [signature.length_bytes, Chip.size_load]
      omega
    have hfirst := Chip.read_preset hsigned
    rw [signature.length_bytes] at hfirst
    have hrest : ((ps.foldl (Chip.load a C) c).preset offset signature.bytes).cells.read
        (offset + 8) p.payloadLen.toNat =
        (ps.foldl (Chip.load a C) c).cells.read (offset + 8) p.payloadLen.toNat := by
      refine Chip.read_congr fun i hlo hhi => Chip.byte_preset_of_not ?_ ?_
      · rw [Chip.size_load]
        omega
      · rw [signature.length_bytes]
        omega
    have hat : offset + 8 = p.destination.toNat - a.base.toNat := by omega
    rw [hkept, hlen, Cells.read_append, hfirst, hrest, hat, hread, himage]

/-- The secondary image, which the signature of the primary one does not touch. -/
theorem holds_secondary {s : ImageHeader} {secondaryAddress : Word} {primary : Placement}
    (hp : Placement.ofPrimary h address = .ok primary)
    (hmem : Placement.ofSecondary s secondaryAddress ∈ ps) (hclear : ∀ p ∈ ps, a.Clear c p)
    (hapart : ps.Pairwise Placement.Apart)
    (hdisjoint : ∀ n, ¬(h.Fills address n ∧ s.Fills secondaryAddress n))
    (hfull : (Placement.ofSecondary s secondaryAddress).span = 0 ∨
      (Placement.ofSecondary s secondaryAddress).streamStop ≤ C.length)
    (hpass : (Placement.ofSecondary s secondaryAddress).Passes a (ps.foldl (Chip.load a C) c)
      (some signature))
    (ho : a.offset address = .ok offset)
    (hsame : ((ps.foldl (Chip.load a C) c).preset offset signature.bytes).Same c') :
    a.Holds c' C s secondaryAddress := by
  obtain ⟨_, hsiglen, _, _, hspan, hstart⟩ := Placement.ofPrimary_eq_ok hp
  have hprimary : 8 ≤ h.imageLen.toNat := by
    rw [← hspan, Placement.span, hsiglen]
    exact Nat.le_add_left _ _
  have himage : s.imageIn C = (Placement.ofSecondary s secondaryAddress).payloadOf C := rfl
  have hpayload := Placement.length_payloadOf hfull
  have hread := Chip.read_load hmem hclear hapart hpayload
  have hdest : (Placement.ofSecondary s secondaryAddress).destination = secondaryAddress := rfl
  have hlen : (Placement.ofSecondary s secondaryAddress).payloadLen = s.imageLen := rfl
  have hc := hclear _ hmem
  have hbase : a.base.toNat ≤ secondaryAddress.toNat := by
    have := hc.base_le
    rw [hdest] at this
    omega
  have hwithin := hc.within
  have hat := offset_eq_ok.1 ho
  have hsize : c'.size = c.size := hsame.size.trans (Chip.size_load ps c)
  rw [hlen] at hpayload hread hwithin
  rw [hdest] at hread hwithin
  have ho' : a.offset secondaryAddress = .ok (secondaryAddress.toNat - a.base.toNat) := by
    rw [offset_eq_ok]
    omega
  refine ⟨himage ▸ hpayload, ?_, _, ho', by omega, ?_⟩
  · have hsum := hpass.2
    simp only [Placement.checksumIn, hdest, hlen, hread] at hsum
    exact hsum
  · have hkept : c'.cells.read (secondaryAddress.toNat - a.base.toNat) s.imageLen.toNat =
        (ps.foldl (Chip.load a C) c).cells.read (secondaryAddress.toNat - a.base.toNat)
          s.imageLen.toNat := by
      refine Chip.read_congr fun i hlo hhi => ?_
      rw [hsame.byte, Chip.byte_preset_of_not (by rw [Chip.size_load]; omega)]
      rw [signature.length_bytes]
      rintro ⟨hlo', hhi'⟩
      refine hdisjoint (a.base.toNat + i) ⟨⟨?_, ?_⟩, ⟨?_, ?_⟩⟩ <;> omega
    rw [hkept, hread, himage]

end Aperture

namespace Config

/-- An installation leaves the addresses of the banks alone. -/
theorem addressOf_installed (c : Config) {cs : List Event} {b b' : Board} {value : Word}
    (h : Does (cs ++ [.slotWrite .activeBank value false]) b b') (hp : b.store.Plain)
    (hunset : ∀ e ∈ cs, e.Unset) (bank : Bank) :
    c.addressOf b'.store bank = c.addressOf b.store bank := by
  cases bank with
  | bank1 => rfl
  | bank2 =>
    refine h.value? hp fun e he => ?_
    rcases List.mem_append.1 he with he | he
    · exact hunset e he _
    · obtain rfl := List.mem_singleton.1 he
      exact Slot.noConfusion

end Config

namespace Attempt

variable [Link σ]

/-- Images that share no flash are in flash once their plan is installed. -/
theorem Installed.holds {a : Attempt} {r r₁ : Rig σ} {C : Bytes} {plan : Plan} {t : TargetHeader}
    {c c' : Chip} {s : Summary} {signature : Signature} {address : Word} {offset : Nat}
    (hi : a.Installed C plan c s signature address offset c')
    (h : a.PlannedFrom C r (plan, t) r₁)
    (hdisjoint : ∀ s, t.secondary = some s → ∀ n,
      ¬(t.primary.Fills t.primary.flashAddress n ∧ s.Fills a.config.secondaryAddress n)) :
    a.aperture.Holds c' C t.primary t.primary.flashAddress ∧
      ∀ s, t.secondary = some s → a.aperture.Holds c' C s a.config.secondaryAddress := by
  obtain ⟨hw, _, _, primary, hprimary, hfind, hplacements⟩ := Plan.ofTarget_eq_ok h.plan
  have hapart := Plan.apart_of_disjoint hprimary hplacements hdisjoint
  have hnoted := (Plan.brought_eq_ok hi.brought hw.roles).1
  obtain ⟨hrole, _, _, _, _, hregion⟩ := Placement.ofPrimary_eq_ok hprimary
  have hmem : primary ∈ plan.placements := List.mem_of_find?_eq_some hfind
  obtain rfl : t.primary.flashAddress = address := by
    simpa only [Plan.bankAddress?_of_primary hfind, hregion, Option.some.injEq] using hi.bankAddress
  have hsignature : primary.signatureOf? C = some signature :=
    ((hnoted primary hmem).1.signature hrole).symm.trans hi.signed
  refine ⟨a.aperture.holds_primary hmem hi.clear hapart (hnoted primary hmem).2 hprimary
    hsignature (hi.passes primary hmem) hi.bankOffset hi.chip, fun s' hs' => ?_⟩
  have hmem' : Placement.ofSecondary s' a.config.secondaryAddress ∈ plan.placements := by
    rw [hs'] at hplacements
    rcases hplacements with hps | hps <;> rw [hps] <;> simp
  exact a.aperture.holds_secondary hprimary hmem' hi.clear hapart (hdisjoint s' hs')
    (hnoted _ hmem').2 (hi.passes _ hmem') hi.bankOffset hi.chip

theorem install_holds (a : Attempt) {r r₁ r' : Rig σ} {C : Bytes} {plan : Plan} {t : TargetHeader}
    (h : a.PlannedFrom C r (plan, t) r₁) (hf : r₁.board.Faultless)
    (hs : a.aperture.base.toNat + r₁.board.chip.size ≤ UInt32.size)
    (hdisjoint : ∀ s, t.secondary = some s → ∀ n,
      ¬(t.primary.Fills t.primary.flashAddress n ∧ s.Fills a.config.secondaryAddress n))
    (hr : a.install .container plan r₁ = .ok () r') :
    a.aperture.Holds r'.board.chip C t.primary t.primary.flashAddress ∧
      ∀ s, t.secondary = some s →
        a.aperture.Holds r'.board.chip C s a.config.secondaryAddress := by
  obtain ⟨hw, _, _, primary, hprimary, _, hplacements⟩ := Plan.ofTarget_eq_ok h.plan
  have hapart := Plan.apart_of_disjoint hprimary hplacements hdisjoint
  obtain ⟨c, s, signature, address, offset, hi⟩ := a.install_yields h.serves h.streamStart_le
    h.buffer_ne hf (fun _ _ hwithin => Nat.le_trans hwithin hs) hw hapart _ _ hr
  exact hi.holds h hdisjoint

/-- The soundness of an update from a container. If it ends with a reboot, then into the bank that
did not run, which is the active one; the header block of the stream is one for that bank; nothing
but the sectors of the images has changed; and unless the two images share flash, each of them is
whole in flash, at its address, and has the checksum of its record. -/
theorem run_container_sound (a : Attempt) {r r' : Rig σ} {stage : Stage} {bank : Bank} {D : Bytes}
    (hflow : a.config.flow = .container) (hD : Link.Serves r.link D) (hf : r.board.Faultless)
    (hs : a.aperture.base.toNat + r.board.chip.size ≤ UInt32.size)
    (hr : a.run r = (⟨stage, .reboot bank⟩, r')) :
    bank = a.running.other ∧ ∃ t plan,
      TargetHeader.parse (a.config.stream .container D) bank.imageTag = .ok t ∧
      Plan.ofTarget t bank t.primary.flashAddress a.config.secondaryAddress = .ok plan ∧
      a.config.addressOf r'.board.store bank = some t.primary.flashAddress ∧
      r'.board.store.value? .activeBank = some bank.toWord ∧
      (∀ i < r.board.chip.size, (∀ p ∈ plan.placements, ¬a.aperture.Covers p i) →
        r'.board.chip.byte i = r.board.chip.byte i) ∧
      ((∀ s, t.secondary = some s → ∀ n,
          ¬(t.primary.Fills t.primary.flashAddress n ∧ s.Fills a.config.secondaryAddress n)) →
        a.aperture.Holds r'.board.chip (a.config.stream .container D) t.primary
          t.primary.flashAddress ∧
        ∀ s, t.secondary = some s →
          a.aperture.Holds r'.board.chip (a.config.stream .container D) s
            a.config.secondaryAddress) := by
  have hp := hf.store.plain
  obtain ⟨f, r₁, _, hrun⟩ | ⟨plan, header, r₁, hx, hrun⟩ := a.run_cases r
  · rw [hrun] at hr
    cases hr
  · rw [hflow] at hx hrun
    obtain ⟨r₂, hy, hrun⟩ | ⟨f, r₂, _, hrun⟩ := hrun
    · rw [hrun] at hr
      cases hr
      -- What planning has done, and what it has found.
      have hsettled : a.config.Settled .container r.board true r₁.board :=
        (a.plan_settled .container hp).ok hx
      obtain ⟨hbytes, _⟩ := hsettled.kept hp
      obtain ⟨ss, _, hd, _⟩ := hsettled
      obtain ⟨t, hplanned⟩ := a.plan_container_yields hD hp _ _ hx
      obtain ⟨hw, hbank, _⟩ := Plan.ofTarget_eq_ok hplanned.plan
      have hp₁ := hd.plain hp
      have hsize : r₁.board.chip.size = r.board.chip.size := hd.size
      -- What the installation has called.
      obtain ⟨ms, hm, hi⟩ := (a.install_installs .container plan hp₁).ok hy
      have hcovered := hi.covered hw
      obtain ⟨cs, hunset, rfl⟩ := hi.last
      have haddress : a.config.addressOf r'.board.store plan.targetBank =
          some t.primary.flashAddress := by
        rw [a.config.addressOf_installed hm hp₁ hunset, hbank]
        exact hplanned.address
      refine ⟨hbank, t, plan, hbank ▸ hplanned.parsed, hbank ▸ hplanned.plan, haddress,
        hm.value?_last hp₁, fun i hi hout => ?_, fun hdisjoint => ?_⟩
      · have hi₁ : i < r₁.board.chip.size := hsize ▸ hi
        rw [hm.byte hi₁, hbytes i hi]
        intro e he ht
        obtain ⟨p, hp, hc⟩ := hcovered e he i ht
        exact hout p hp hc
      · exact a.install_holds hplanned (hd.faultless hf) (hsize ▸ hs) hdisjoint hy
    · obtain ⟨o, b, ha⟩ := (a.abandon_ends plan f r₂).outcome
      rw [hrun, ha] at hr
      cases hr

end Attempt

namespace Sample

def secondaryHeader : ImageHeader := ⟨.rdp, 24, 36, 3, 66, 0x2000⟩

def header : TargetHeader where
  file := ⟨1, 2⟩
  recordLen := 24
  primary := ⟨.ota1, 24, 55, 10, 56, 0⟩
  secondary := some secondaryHeader

theorem parse_container : TargetHeader.parse container .ota1 = .ok header := rfl

theorem disjoint : ∀ s, header.secondary = some s → ∀ n,
    ¬(header.primary.Fills 0 n ∧ s.Fills 0x2000 n) := by
  rintro s hs n ⟨⟨_, hhi⟩, ⟨hlo, _⟩⟩
  cases hs
  have hfirst : n < 0 + 10 := hhi
  have hsecond : 0x2000 ≤ n := hlo
  omega

end Sample

/-- Both images of the sample arrive. -/
theorem Attempt.run_container_sound_sample :
    Link.Serves (Sample.rig Sample.container).link Sample.container ∧
    (Sample.rig Sample.container).board.Faultless ∧
    (Sample.attempt.run (Sample.rig Sample.container)).1 = ⟨.commitSuccess, .reboot .bank1⟩ ∧
    TargetHeader.parse Sample.container .ota1 = .ok Sample.header ∧
    Sample.attempt.aperture.Holds
      (Sample.attempt.run (Sample.rig Sample.container)).2.board.chip Sample.container
      Sample.header.primary 0 ∧
    Sample.attempt.aperture.Holds
      (Sample.attempt.run (Sample.rig Sample.container)).2.board.chip Sample.container
      Sample.secondaryHeader 0x2000 := by
  have hD : Link.Serves (Sample.rig Sample.container).link Sample.container :=
    Scripted.serves (by simp [Sample.rig]) rfl
  have hf : (Sample.rig Sample.container).board.Faultless :=
    ⟨fun _ _ => rfl, rfl, fun _ => rfl, fun _ => rfl⟩
  have hr : (Sample.attempt.run (Sample.rig Sample.container)).1 =
      ⟨.commitSuccess, .reboot .bank1⟩ := by decide +kernel
  obtain ⟨_, t, plan, hparse, _, _, _, _, hholds⟩ :=
    Sample.attempt.run_container_sound rfl hD hf (by decide) (Prod.ext hr rfl)
  obtain rfl : Sample.header = t := Except.ok.inj (Sample.parse_container.symm.trans hparse)
  obtain ⟨hprimary, hsecondary⟩ := hholds Sample.disjoint
  exact ⟨hD, hf, hr, Sample.parse_container, hprimary, hsecondary _ rfl⟩

end DualBank
