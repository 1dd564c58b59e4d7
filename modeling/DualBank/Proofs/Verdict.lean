import DualBank.Proofs.Soundness

/-! What becomes of a plan, up to the step that makes the target bootable. On a device without
faults three things decide: the chip has to have the sectors of every image, the stream has to have
every image whole, and the bytes of each have to sum up to its checksum. The first of them that is
not so is what the attempt reports. -/
namespace DualBank

variable {σ : Type}

/-! ## Erasing -/

/-- An erasure of `len` bytes from an address on can be done: the chip has the sectors, and nobody
else holds it. -/
def Aperture.CanErase (a : Aperture) (size : Nat) (address len : Word) : Prop :=
  a.held = false ∧ ∃ start stop, a.sectors address len = .ok (start, stop) ∧ stop ≤ size

namespace Aperture

variable {a : Aperture} {size : Nat} {address len : Word} {b : Board}

theorem eraseRefusal_of_sectors {c : Chip} {start stop : Nat}
    (hs : a.sectors address len = .ok (start, stop)) (hle : stop ≤ c.size) :
    c.eraseRefusal start stop = none := by
  obtain ⟨_, rfl, halign, _⟩ := sectors_eq_ok.1 hs
  have hwhole : sectorsOf len.toNat % sectorSize = 0 := Nat.mul_mod_left _ _
  have hstop : (start + sectorsOf len.toNat) % sectorSize = 0 := by
    rw [Nat.add_mod, halign, hwhole]
    rfl
  rw [Chip.eraseRefusal, if_neg (by omega), if_neg (by simp [halign, hstop])]

/-- On a chip without faults an erasure is done exactly if it can be. -/
theorem erase_verdict (hf : b.chip.Faultless) : Ends (a.erase address len) b fun o _ =>
    o.isOk = true ↔ a.CanErase b.chip.size address len := by
  by_cases hcan : a.CanErase b.chip.size address len
  · obtain ⟨hh, start, stop, hs, hle⟩ := id hcan
    refine (erase_ok hf hh hs (eraseRefusal_of_sectors hs hle)).mono fun o _ hdone => ?_
    obtain ⟨rfl, _⟩ := hdone
    exact iff_of_true rfl hcan
  · refine (a.erase_ends address len b).mono fun o _ herased => ?_
    cases o with
    | error e => exact iff_of_false Bool.false_ne_true hcan
    | ok v =>
      obtain ⟨_, hh, start, stop, hs, hle, _⟩ := herased
      exact absurd ⟨hh, start, stop, hs, hle⟩ hcan

theorem erases_iff (hf : b.chip.Faultless) :
    (∃ b', a.erase address len b = .ok () b') ↔ a.CanErase b.chip.size address len := by
  have hverdict : Ends (a.erase address len) b _ := erase_verdict hf
  cases h : a.erase address len b with
  | ok v b' => exact iff_of_true ⟨b', rfl⟩ ((hverdict.ok h).1 rfl)
  | error e b' =>
    exact iff_of_false (fun ⟨_, h'⟩ => nomatch h') fun hcan =>
      Bool.false_ne_true ((hverdict.error h).2 hcan)

/-- Where more can be erased the first sector can be. -/
theorem CanErase.first (h : a.CanErase size address len) :
    a.CanErase size address (.ofNat sectorSize) := by
  obtain ⟨hh, start, stop, hs, hle⟩ := h
  obtain ⟨hbase, rfl, halign, _, hlt⟩ := sectors_eq_ok.1 hs
  have hsectors := sectorSize_le_sectorsOf len.toNat
  exact ⟨hh, start, start + sectorSize,
    sectors_eq_ok.2 ⟨hbase, rfl, halign, by decide, by omega⟩, by omega⟩

end Aperture

/-- The sectors of the image can be erased. -/
def Placement.CanErase (p : Placement) (a : Aperture) (size : Nat) : Prop :=
  ∃ start len, p.regionStart? = some start ∧ p.regionLen? = some len ∧ a.CanErase size start len

namespace Board

/-- The targets are erased exactly if the sectors of every image can be. -/
theorem eraseTargets_verdict {a : Aperture} {ps : List Placement} {b : Board}
    (hf : b.chip.Faultless) : Ends (eraseTargets a ps) b fun o _ =>
      o.isOk = true ↔ ∀ p ∈ ps, p.CanErase a b.chip.size := by
  induction ps generalizing b with
  | nil => exact Ends.pure (iff_of_true rfl (by simp))
  | cons p ps ih =>
    have hrefused : ∀ e, ¬p.CanErase a b.chip.size →
        Ends (MonadExcept.throw e : Board.Action Unit) b fun o _ =>
          o.isOk = true ↔ ∀ p' ∈ p :: ps, p'.CanErase a b.chip.size := fun e hp =>
      Ends.throw (iff_of_false Bool.false_ne_true fun hall => hp (hall p List.mem_cons_self))
    unfold eraseTargets
    split
    · rename_i start hs
      split
      · rename_i len hl
        have hregion : p.CanErase a b.chip.size ↔ a.CanErase b.chip.size start len := by
          constructor
          · rintro ⟨start', len', hs', hl', hcan⟩
            cases hs.symm.trans hs'
            cases hl.symm.trans hl'
            exact hcan
          · exact fun hcan => ⟨start, len, hs, hl, hcan⟩
        refine ((Aperture.erase_verdict hf).and (a.erase_ends start len b)).bind
          (fun v b₁ herased => ?_) fun e b₁ hfailed => ?_
        · obtain ⟨hverdict, _, _, _, _, _, _, hchip⟩ := herased
          have hsize : b₁.chip.size = b.chip.size := hchip.size
          have hp := hregion.2 (hverdict.1 rfl)
          refine (ih (hchip.faultless hf)).mono fun o _ hrest => ?_
          rw [hrest, hsize, List.forall_mem_cons]
          exact (and_iff_right hp).symm
        · refine iff_of_false Bool.false_ne_true fun hall => ?_
          exact absurd (hfailed.1.2 (hregion.1 (hall p List.mem_cons_self))) Bool.false_ne_true
      · rename_i hl
        refine hrefused _ fun ⟨_, _, _, hl', _⟩ => ?_
        exact absurd hl' (hl _)
    · rename_i hs
      refine hrefused _ fun ⟨_, _, hs', _⟩ => ?_
      exact absurd hs' (hs _)

/-- A plan whose targets can be erased can be rolled back. -/
theorem rollBack_verdict {a : Aperture} {plan : Plan} {b : Board} (hf : b.chip.Faultless)
    (hw : plan.WellFormed) (hcan : ∀ p ∈ plan.placements, p.CanErase a b.chip.size) :
    Ends (rollBack a plan) b fun o _ => o = .ok () := by
  obtain ⟨primary, hprimary⟩ := hw.primary
  obtain ⟨start, len, hs, _, hregion⟩ := hcan primary (List.mem_of_find?_eq_some hprimary)
  have haddress : plan.bankAddress? = some start :=
    (Plan.bankAddress?_of_primary hprimary).trans hs
  unfold rollBack
  simp only [haddress]
  refine (Aperture.erase_verdict hf).mono fun o _ hverdict => ?_
  cases o with
  | ok v => rfl
  | error e => exact absurd (hverdict.2 hregion.first) Bool.false_ne_true

end Board

/-! ## Images that are whole and sum up -/

namespace Placement

/-- The bytes of the image in the stream, its signature included. -/
def imageIn (p : Placement) (C : Bytes) : Bytes := (C.drop p.streamOffset.toNat).take p.span

/-- The stream reaches to the end of the image. -/
def Whole (p : Placement) (C : Bytes) : Prop := p.span = 0 ∨ p.streamStop ≤ C.length

/-- The bytes of the image have the checksum that it was planned with. -/
def SumsUp (p : Placement) (C : Bytes) : Prop := Checksum.of (p.imageIn C) = p.expectedChecksum

/-- A signature has its full length, and only a primary image has one. -/
def Regular (p : Placement) : Prop :=
  p.signatureLen.toNat = 0 ∨ p.role = .primary ∧ p.signatureLen.toNat = Signature.length

/-- Flash has the payload of the image. -/
structure Loaded (p : Placement) (a : Aperture) (c : Chip) (C : Bytes) : Prop where
  base_le : a.base.toNat ≤ p.destination.toNat
  within : p.destination.toNat + p.payloadLen.toNat ≤ a.base.toNat + c.size
  read : c.cells.read (p.destination.toNat - a.base.toNat) p.payloadLen.toNat = p.payloadOf C

variable {p : Placement} {a : Aperture} {C : Bytes} {c : Chip} {ps : List Placement}

theorem signatureOf?_eq_some (h : p.Whole C) (hlen : p.signatureLen.toNat = Signature.length) :
    ∃ signature : Signature, p.signatureOf? C = some signature ∧
      signature.bytes = p.signatureOf C := by
  have hbytes : (p.signatureOf C).length = 8 := by
    rw [signatureOf, List.length_take, List.length_drop]
    simp only [Whole, streamStop, span, Signature.length] at h hlen
    omega
  refine ⟨⟨p.signatureOf C, hbytes⟩, ?_, rfl⟩
  rw [signatureOf?, if_pos hlen]
  exact Signature.ofBytes?_eq_some.2 rfl

/-- An image that was loaded passes the check exactly if its bytes in the stream sum up. -/
theorem passes_iff (hwhole : p.Whole C) (hregular : p.Regular) (hmem : p ∈ ps)
    (hclear : ∀ p ∈ ps, a.Clear c p) (hapart : ps.Pairwise Apart) {signature : Option Signature}
    (hsig : p.role = .primary → signature = p.signatureOf? C) :
    p.Passes a (ps.foldl (Chip.load a C) c) signature ↔ p.SumsUp C := by
  have hread := Chip.read_load hmem hclear hapart (length_payloadOf hwhole)
  unfold Passes checksumIn SumsUp imageIn
  rw [hread, ← signatureOf_append]
  obtain hnone | ⟨hrole, hlen⟩ := hregular
  · have hempty : p.signatureOf C = [] := by rw [Placement.signatureOf, hnone, List.take_zero]
    have hzero : p.signatureLen = 0 := UInt32.toNat_inj.1 hnone
    rw [hempty, List.nil_append]
    cases hrole : p.role with
    | primary =>
      have hunsigned : p.signatureOf? C = none := by
        rw [signatureOf?, if_neg (by rw [hnone]; decide)]
      rw [hsig hrole, hunsigned]
      exact and_iff_right fun _ hne => absurd hzero hne
    | secondary =>
      cases signature <;> exact and_iff_right Role.noConfusion
  · obtain ⟨s, hs, hbytes⟩ := signatureOf?_eq_some hwhole hlen
    rw [hsig hrole, hs, hrole]
    dsimp only
    rw [hbytes, Checksum.add_of]
    exact and_iff_right fun _ _ => rfl

end Placement

namespace Plan

/-- The transfer brings the images exactly if the stream has them whole. -/
theorem brought_verdict (C : Bytes) (q : Nat) (s : Summary) (ps : List Placement) :
    (∃ s', brought C q s ps = .ok s') ∧ (∀ p ∈ ps, p.Whole C) ∨
    brought C q s ps = .error .streamTruncated ∧ ¬∀ p ∈ ps, p.Whole C := by
  induction ps generalizing q s with
  | nil => exact .inl ⟨⟨_, rfl⟩, by simp⟩
  | cons p ps ih =>
    unfold brought
    by_cases hshort : p.span ≠ 0 ∧ C.length < p.streamStop
    · rw [if_pos hshort]
      refine .inr ⟨rfl, fun hall => ?_⟩
      have hp := hall p List.mem_cons_self
      unfold Placement.Whole at hp
      omega
    · rw [if_neg hshort, List.forall_mem_cons]
      have hp : p.Whole C := by
        unfold Placement.Whole
        omega
      obtain ⟨hs, hall⟩ | ⟨hs, hno⟩ := ih (p.positionAfter q) (s.take C p)
      · exact .inl ⟨hs, hp, hall⟩
      · exact .inr ⟨hs, fun hall => hno hall.2⟩

end Plan

/-! ## The verdict -/

namespace Attempt

variable [Link σ]

/-- Nothing is delivered without a buffer. -/
theorem deliver_buffer (a : Attempt) (plan : Plan) (r : Rig σ) :
    Yields (a.deliver plan) r fun _ _ => r.buffer ≠ [] := by
  have herased : Yields (Rig.onBoard (Board.eraseTargets a.aperture plan.placements)) r
      fun _ r₁ => r₁.buffer = r.buffer := Yields.onBoard fun _ _ _ => rfl
  refine herased.during.bind fun _ r₁ hbuf => ?_
  have htransfer : Yields (Rig.transfer a.aperture plan) r₁ fun _ _ => ¬r₁.buffer = [] :=
    fun _ _ hx => Yields.guard (fun hne _ _ _ => hne) _ _ hx
  rw [hbuf] at htransfer
  exact htransfer.during.bind fun _ _ hne _ _ _ => hne

/-- The images of the plan are in flash, and pass. -/
structure Accepted (a : Attempt) (C : Bytes) (plan : Plan) (size : Nat) : Prop where
  canErase : ∀ p ∈ plan.placements, p.CanErase a.aperture size
  whole : ∀ p ∈ plan.placements, p.Whole C
  sumsUp : ∀ p ∈ plan.placements, p.SumsUp C

/-- What a plan that is not accepted fails by. -/
inductive Rejected (a : Attempt) (C : Bytes) (plan : Plan) (size : Nat) : Failure → Prop where
  | region {e : UpdateError} (h : ¬∀ p ∈ plan.placements, p.CanErase a.aperture size) :
      Rejected a C plan size ⟨.eraseTarget, e⟩
  | short (hcan : ∀ p ∈ plan.placements, p.CanErase a.aperture size)
      (h : ¬∀ p ∈ plan.placements, p.Whole C) :
      Rejected a C plan size ⟨.streamWrite, .streamTruncated⟩
  | sum (hcan : ∀ p ∈ plan.placements, p.CanErase a.aperture size)
      (hwhole : ∀ p ∈ plan.placements, p.Whole C) (h : ¬∀ p ∈ plan.placements, p.SumsUp C) :
      Rejected a C plan size ⟨.verify, .checksumMismatch⟩

theorem Rejected.not_accepted {a : Attempt} {C : Bytes} {plan : Plan} {size : Nat} {f : Failure}
    (h : a.Rejected C plan size f) : ¬a.Accepted C plan size := by
  rintro ⟨hcan, hwhole, hsum⟩
  cases h with
  | region h => exact h hcan
  | short _ h => exact h hwhole
  | sum _ _ h => exact h hsum

/-- The device after a step of an installation: its words and the size of its chip are as they
were, and no call on it is set to fail. -/
structure Kept (b b' : Board) : Prop where
  store : b.store.Same b'.store
  size : b'.chip.size = b.chip.size
  faultless : b'.Faultless

theorem Kept.trans {b b' b'' : Board} (h : Kept b b') (h' : Kept b' b'') : Kept b b'' :=
  ⟨h.store.trans h'.store, h'.size.trans h.size, h'.faultless⟩

theorem Kept.of_same {b b' : Board} (hf : b.Faultless) (h : b.Same b') : Kept b b' :=
  ⟨h.store, h.chip.size, h.faultless hf⟩

omit [Link σ] in
theorem erase_verdict (a : Attempt) {plan : Plan} {r : Rig σ} (hf : r.board.Faultless)
    (hw : plan.WellFormed) :
    Ends (Rig.onBoard (Board.eraseTargets a.aperture plan.placements)) r fun o r₁ =>
      Kept r.board r₁.board ∧
      (o.isOk = true ↔ ∀ p ∈ plan.placements, p.CanErase a.aperture r.board.chip.size) ∧
      (o.isOk = true → a.Erased plan r r₁) := by
  obtain ⟨p, hp⟩ := hw.primary
  have hne : plan.placements ≠ [] := List.ne_nil_of_mem (List.mem_of_find?_eq_some hp)
  refine Ends.onBoard (((Board.eraseTargets_clear a.aperture plan.placements r.board).and
    (Board.eraseTargets_verdict hf.chip)).mono fun o b h => ?_)
  obtain ⟨⟨hst, hsz, hfl, _, hk⟩, hverdict⟩ := h
  have hkept : Kept r.board b := ⟨hst, hsz, hfl hf.chip, hst.faultless hf.store⟩
  exact ⟨hkept, hverdict, fun hok =>
    ⟨rfl, rfl, hkept.faultless, hsz, (hk hok).2 hne, (hk hok).1⟩⟩

theorem transfer_verdict (a : Attempt) {plan : Plan} {r r₁ : Rig σ} {C : Bytes}
    (h₁ : a.Erased plan r r₁) (hserves : Link.Serves r.link (C.drop plan.streamStart.toNat))
    (hq : plan.streamStart.toNat ≤ C.length) (hbuffer : r.buffer ≠ [])
    (hs : ∀ p ∈ plan.placements, p.Addressed) (hw : plan.WellFormed)
    (hapart : plan.placements.Pairwise Placement.Apart) :
    Ends (Rig.transfer a.aperture plan) r₁ fun o r₂ => Kept r₁.board r₂.board ∧
      match o with
      | .ok s => (∀ p ∈ plan.placements, p.Whole C) ∧ a.Delivered C plan r₁.board.chip s r₂
      | .error e => e = .streamTruncated ∧ ¬∀ p ∈ plan.placements, p.Whole C := by
  refine (Rig.transfer_ends (h₁.link ▸ hserves) hq (h₁.buffer ▸ hbuffer) h₁.faultless h₁.held hs
    hw h₁.clear hapart).mono fun o r₂ htransferred => ?_
  obtain ⟨ho, hstore, hchip, hbuf⟩ := htransferred
  have hkept : Kept r₁.board r₂.board := ⟨hstore, hchip.size.trans (Chip.size_load _ _),
    hchip.faultless (Chip.faultless_load h₁.faultless.chip), hstore.faultless h₁.faultless.store⟩
  obtain ⟨⟨s, hs'⟩, hwhole⟩ | ⟨hs', hshort⟩ :=
    Plan.brought_verdict C plan.streamStart.toNat {} plan.placements
  · rw [hs'] at ho
    subst ho
    exact ⟨hkept, hwhole, hs', h₁.clear, hs, hchip, hkept.faultless, h₁.held, hbuf rfl⟩
  · rw [hs'] at ho
    subst ho
    exact ⟨hkept, rfl, hshort⟩

omit [Link σ] in
theorem Delivered.loaded {a : Attempt} {C : Bytes} {plan : Plan} {c c' : Chip} {s : Summary}
    {r : Rig σ} (h : a.Delivered C plan c s r) (hapart : plan.placements.Pairwise Placement.Apart)
    (hwhole : ∀ p ∈ plan.placements, p.Whole C) (hsame : r.board.chip.Same c') :
    ∀ p ∈ plan.placements, p.Loaded a.aperture c' C := by
  intro p hp
  have hchip := h.chip.trans hsame
  have hclear := h.clear p hp
  have hsize : c'.size = c.size := hchip.size.trans (Chip.size_load _ _)
  refine ⟨Nat.le_trans hclear.base_le (Nat.sub_le _ _), hsize ▸ hclear.within, ?_⟩
  rw [← Chip.read_load hp h.clear hapart (Placement.length_payloadOf (hwhole p hp))]
  exact Chip.read_congr fun i _ _ => by rw [hchip.byte]

omit [Link σ] in
theorem Delivered.verify_verdict {a : Attempt} {C : Bytes} {plan : Plan} {c : Chip} {s : Summary}
    {r : Rig σ} (h : a.Delivered C plan c s r) (hw : plan.WellFormed)
    (hapart : plan.placements.Pairwise Placement.Apart)
    (hregular : ∀ p ∈ plan.placements, p.Regular) (hwhole : ∀ p ∈ plan.placements, p.Whole C) :
    Ends (Rig.verify a.aperture s plan.placements) r fun o r' => r.board.Same r'.board ∧
      match o with
      | .ok _ => ∀ p ∈ plan.placements, p.SumsUp C
      | .error e => e = .checksumMismatch ∧ ¬∀ p ∈ plan.placements, p.SumsUp C := by
  have hnoted := (Plan.brought_eq_ok h.brought hw.roles).1
  have hpasses : ∀ p ∈ plan.placements, (p.Passes a.aperture
      (plan.placements.foldl (Chip.load a.aperture C) c) s.signature ↔ p.SumsUp C) :=
    fun p hp => Placement.passes_iff (hwhole p hp) (hregular p hp) hp h.clear hapart
      (hnoted p hp).1.signature
  refine (h.verify_ends hw).mono fun o r' hverified => ?_
  obtain ⟨hb, ⟨hall, rfl⟩ | ⟨hno, rfl⟩⟩ := hverified
  · exact ⟨hb, fun p hp => (hpasses p hp).1 (hall p hp)⟩
  · exact ⟨hb, rfl, fun hall => hno fun p hp => (hpasses p hp).2 (hall p hp)⟩

/-- The verdict on a plan, from a connection that is right behind what was read for it. -/
theorem deliver_verdict (a : Attempt) {plan : Plan} {r : Rig σ} {C : Bytes}
    (hserves : Link.Serves r.link (C.drop plan.streamStart.toNat))
    (hq : plan.streamStart.toNat ≤ C.length) (hbuffer : r.buffer ≠ []) (hf : r.board.Faultless)
    (hs : a.aperture.base.toNat + r.board.chip.size ≤ UInt32.size) (hw : plan.WellFormed)
    (hregular : ∀ p ∈ plan.placements, p.Regular)
    (hapart : plan.placements.Pairwise Placement.Apart) :
    Ends (a.deliver plan) r fun o r' => Kept r.board r'.board ∧
      match o with
      | .ok _ => a.Accepted C plan r.board.chip.size ∧
          ∀ p ∈ plan.placements, p.Loaded a.aperture r'.board.chip C
      | .error f => a.Rejected C plan r.board.chip.size f := by
  unfold deliver
  refine Ends.bind (Ends.during (Q := fun o r₁ => Kept r.board r₁.board ∧
    match o with
    | .ok _ => (∀ p ∈ plan.placements, p.CanErase a.aperture r.board.chip.size) ∧
        a.Erased plan r r₁
    | .error f => a.Rejected C plan r.board.chip.size f)
    ((a.erase_verdict hf hw).mono fun o r₁ h => ?_)) (fun _ r₁ h₁ => ?_) fun _ _ h => h
  · obtain ⟨hkept, hverdict, herased⟩ := h
    cases o with
    | ok v => exact ⟨hkept, hverdict.1 rfl, herased rfl⟩
    | error e => exact ⟨hkept, .region fun hcan => Bool.false_ne_true (hverdict.2 hcan)⟩
  obtain ⟨hkept₁, hcan, herased⟩ := h₁
  have hs₁ : ∀ p ∈ plan.placements, p.Addressed :=
    fun p hp => (herased.clear p hp).addressed (herased.size ▸ hs)
  refine Ends.bind (Ends.during (Q := fun o r₂ => Kept r.board r₂.board ∧
    match o with
    | .ok s => (∀ p ∈ plan.placements, p.Whole C) ∧ a.Delivered C plan r₁.board.chip s r₂
    | .error f => a.Rejected C plan r.board.chip.size f)
    ((a.transfer_verdict herased hserves hq hbuffer hs₁ hw hapart).mono fun o r₂ h => ?_))
    (fun s r₂ h₂ => ?_) fun _ _ h => h
  · obtain ⟨hkept, h⟩ := h
    cases o with
    | ok s => exact ⟨hkept₁.trans hkept, h⟩
    | error e =>
      obtain ⟨rfl, hshort⟩ := h
      exact ⟨hkept₁.trans hkept, .short hcan hshort⟩
  obtain ⟨hkept₂, hwhole, hdelivered⟩ := h₂
  refine Ends.bind (Ends.during (Q := fun o r₃ => Kept r.board r₃.board ∧
    match o with
    | .ok _ => (∀ p ∈ plan.placements, p.SumsUp C) ∧ r₂.board.Same r₃.board
    | .error f => a.Rejected C plan r.board.chip.size f)
    ((hdelivered.verify_verdict hw hapart hregular hwhole).mono fun o r₃ h => ?_))
    (fun _ r₃ h₃ => ?_) fun _ _ h => h
  · obtain ⟨hsame, h⟩ := h
    have hkept₃ := hkept₂.trans (.of_same hkept₂.faultless hsame)
    cases o with
    | ok v => exact ⟨hkept₃, h, hsame⟩
    | error e =>
      obtain ⟨rfl, hsum⟩ := h
      exact ⟨hkept₃, .sum hcan hwhole hsum⟩
  obtain ⟨hkept₃, hsum, hsame⟩ := h₃
  exact Ends.pure ⟨hkept₃, ⟨hcan, hwhole, hsum⟩, hdelivered.loaded hapart hwhole hsame.chip⟩

end Attempt
end DualBank
