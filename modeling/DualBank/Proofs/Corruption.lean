import DualBank.Proofs.BareInstall
import DualBank.Proofs.Chunking

/-! One changed byte. If a stream is installed, then one that differs from it in one byte of an
image is not: what precedes the images is the same, so it has the same plan; everything is erased
and written as before; and the one sum that covers the byte comes out different. The attempt fails
when it checks the images, and wipes the first sector of the target. -/
namespace DualBank

variable {σ σ₁ σ₂ : Type}

/-! ## Sums -/

namespace Checksum

theorem of_cons (x : UInt8) (b : Bytes) : of (x :: b) = x.toUInt32 + of b := by
  rw [of, add, List.foldl_cons, UInt32.zero_add]
  exact add_eq _ _

theorem of_append (a b : Bytes) : of (a ++ b) = of a + of b := by
  rw [of, add_append, add_eq]
  rfl

/-- A sum tells apart what differs in one byte. -/
theorem of_set {b : Bytes} {i : Nat} {y : UInt8} (hi : i < b.length) :
    of (b.set i y) = of b ↔ b[i] = y := by
  constructor
  · intro h
    have hsplit : of b = of (b.take i) + (b[i].toUInt32 + of (b.drop (i + 1))) := by
      rw [← of_cons, ← of_append, ← List.drop_eq_getElem_cons hi, List.take_append_drop]
    rw [List.set_eq_take_append_cons_drop, if_pos hi, of_append, of_cons, hsplit] at h
    have hword : y.toUInt32 = b[i].toUInt32 := by
      simpa using h
    exact (UInt8.toUInt32_inj.1 hword).symm
  · rintro rfl
    rw [List.set_getElem_self]

end Checksum

/-! ## The image with the byte -/

/-- The byte of the stream belongs to the image. -/
def Placement.Takes (p : Placement) (i : Nat) : Prop :=
  p.streamOffset.toNat ≤ i ∧ i < p.streamStop

theorem Placement.sumsUp_set {p : Placement} {C : Bytes} {i : Nat} {y : UInt8} (hp : p.Takes i)
    (hi : i < C.length) (hsum : p.SumsUp C) : p.SumsUp (C.set i y) ↔ C[i] = y := by
  obtain ⟨hlo, hhi⟩ := hp
  rw [streamStop] at hhi
  have himage : p.imageIn (C.set i y) = (p.imageIn C).set (i - p.streamOffset.toNat) y := by
    rw [imageIn, List.drop_set, if_neg (by omega), List.take_set]
    rfl
  have hlt : i - p.streamOffset.toNat < (p.imageIn C).length := by
    rw [imageIn, List.length_take, List.length_drop]
    omega
  have hbyte : (p.imageIn C)[i - p.streamOffset.toNat] = C[i] := by
    simp only [imageIn, List.getElem_take, List.getElem_drop]
    congr 1
    omega
  rw [SumsUp, himage, ← hbyte, ← Checksum.of_set hlt, hsum]

/-! ## What precedes the images -/

/-- A header block depends on its own bytes alone. -/
theorem Rig.headerBlock_set {capacity d i : Nat} {C : Bytes} {y : UInt8}
    (hd : Prologue.declared C = .ok d) (hle : d ≤ C.length) (hi : d ≤ i) :
    headerBlock capacity (C.set i y) = headerBlock capacity C := by
  have hlong := Prologue.length_le_declared hd
  have htake : (C.set i y).take d = C.take d := List.take_set_of_le hi
  have hd' : Prologue.declared (C.set i y) = .ok d := by
    rw [← Prologue.declared_take hlong (by rw [List.length_set]; omega), htake,
      Prologue.declared_take hlong (by omega), hd]
  rw [headerBlock, headerBlock, hd, hd', List.length_set]
  dsimp only
  rw [htake]

/-- Bytes that come before those of the images are counted from. -/
def Config.lead (c : Config) : Flow → Nat
  | .container => if c.expectFileInfo then FileInfo.length else 0
  | .bare => FileInfo.length

theorem Config.stream_eq (c : Config) (flow : Flow) (D : Bytes) :
    c.stream flow D = D.drop (c.lead flow) := by
  cases flow with
  | container => simp only [stream, lead]; split <;> rfl
  | bare => rfl

theorem Config.stream_set (c : Config) {flow : Flow} {D : Bytes} {i : Nat} {y : UInt8}
    (hi : c.lead flow ≤ i) :
    c.stream flow (D.set i y) = (c.stream flow D).set (i - c.lead flow) y := by
  rw [stream_eq, stream_eq, List.drop_set, if_neg (by omega)]

namespace Attempt

section
variable [Link σ₁] [Link σ₂] {r₁ : Rig σ₁} {r₂ : Rig σ₂}

/-- The planning of a container depends on its header block. -/
theorem planContainer_set (a : Attempt) {D : Bytes} {d i : Nat} {y : UInt8} (hl : r₁.Level r₂)
    (hD₁ : Link.Serves r₁.link D) (hD₂ : Link.Serves r₂.link (D.set i y))
    (hlen : r₁.buffer.length = r₂.buffer.length)
    (hd : Prologue.declared (a.config.stream .container D) = .ok d)
    (hle : d ≤ (a.config.stream .container D).length) (hi : a.config.lead .container + d ≤ i) :
    EndLevel a.planContainer r₁ a.planContainer r₂ fun _ _ _ => True := by
  have hstream : a.config.stream .container (D.set i y) = _ := a.config.stream_set (by omega)
  have hblock : ∀ {t₁ : Rig σ₁} {t₂ : Rig σ₂}, t₁.Level t₂ →
      Link.Serves t₁.link (a.config.stream .container D) →
      Link.Serves t₂.link (a.config.stream .container (D.set i y)) →
      t₁.buffer.length = t₂.buffer.length →
      EndLevel a.planBlock t₁ a.planBlock t₂ fun _ _ _ => True := by
    intro t₁ t₂ hl hC₁ hC₂ hlen
    refine a.planBlock_level_of (Rig.receiveHeader_level_of hl hC₁ hC₂ ?_)
    rw [hstream, Rig.headerBlock_set hd hle (by omega), hlen]
  rw [planContainer_eq, planContainer_eq]
  simp only [Config.stream] at hblock
  by_cases hinfo : a.config.expectFileInfo = true
  · rw [if_pos hinfo, if_pos hinfo]
    simp only [if_pos hinfo] at hblock
    have hlead : a.config.lead .container = FileInfo.length := if_pos hinfo
    have hreceived : EndLevel FileInfo.receive r₁ FileInfo.receive r₂ fun _ t₁ t₂ =>
        Link.Serves t₁.link (D.drop FileInfo.length) ∧
        Link.Serves t₂.link ((D.set i y).drop FileInfo.length) ∧
        t₁.buffer.length = t₂.buffer.length := by
      refine EndAlike.of_ends (FileInfo.receive_ends hD₁) (FileInfo.receive_ends hD₂)
        fun h₁ h₂ => ?_
      obtain ⟨hb₁, hbuf₁, hs₁, ho₁⟩ := h₁
      obtain ⟨hb₂, hbuf₂, hs₂, ho₂⟩ := h₂
      rw [List.length_set, List.take_set_of_le (by omega)] at ho₂
      have hl : Rig.Level _ _ := ⟨(hb₁.symm.trans hl.same).trans hb₂, hb₁.faultless hl.faultless⟩
      exact ⟨ho₁.trans ho₂.symm, hl, fun _ _ => ⟨hs₁, hs₂, by rw [hbuf₁, hbuf₂, hlen]⟩⟩
    refine hreceived.during.bind fun _ t₁ t₂ hl hserves => ?_
    obtain ⟨hs₁, hs₂, hlen⟩ := hserves
    exact hblock hl hs₁ hs₂ hlen
  · rw [if_neg hinfo, if_neg hinfo]
    simp only [if_neg hinfo] at hblock
    exact hblock hl hD₁ hD₂ hlen

end

/-- The rig when there is a plan: the connection is right behind what was read for it, and the
device is ready to carry it out. -/
structure Poised [Link σ] (a : Attempt) (C : Bytes) (r : Rig σ) (plan : Plan) (r' : Rig σ) :
    Prop where
  serves : Link.Serves r'.link (C.drop plan.streamStart.toNat)
  streamStart_le : plan.streamStart.toNat ≤ C.length
  buffer : r'.buffer.length = r.buffer.length
  faultless : r'.board.Faultless
  size : r'.board.chip.size = r.board.chip.size
  active : r'.board.store.value? .activeBank = r.board.store.value? .activeBank
  wellFormed : plan.WellFormed
  regular : ∀ p ∈ plan.placements, p.Regular
  address : ∃ address, plan.bankAddress? = some address ∧
    a.config.addressOf r'.board.store a.running.other = some address

theorem planContainer_poised [Link σ] (a : Attempt) {r : Rig σ} {D : Bytes}
    (hD : Link.Serves r.link D) (hf : r.board.Faultless) :
    Yields (a.plan .container) r fun v r' =>
      a.Poised (a.config.stream .container D) r v.1 r' := by
  intro v r' hx
  obtain ⟨t, h⟩ := a.plan_container_yields hD hf.store.plain v r' hx
  have hsettled := (a.plan_settled .container hf.store.plain).ok hx
  have hactive := (hsettled.kept hf.store.plain).2.1
  obtain ⟨_, _, hd, _⟩ := hsettled
  obtain ⟨hw, _, _, primary, hprimary, hfind, hplacements⟩ := Plan.ofTarget_eq_ok h.plan
  obtain ⟨hrole, hsig, _, _, _, hregion⟩ := Placement.ofPrimary_eq_ok hprimary
  refine ⟨h.serves, h.streamStart_le, h.buffer, hd.faultless hf, hd.size, hactive, hw,
    fun p hp => ?_, t.primary.flashAddress, ?_, h.address⟩
  · obtain rfl | ⟨s, _, rfl⟩ := Plan.mem_placements hplacements hp
    · exact .inr ⟨hrole, by rw [hsig]; rfl⟩
    · exact .inl rfl
  · exact (Plan.bankAddress?_of_primary hfind).trans hregion

theorem planBare_poised [Link σ] (a : Attempt) {r : Rig σ} {D : Bytes}
    (hD : Link.Serves r.link D) (hf : r.board.Faultless) :
    Yields (a.plan .bare) r fun v r' => a.Poised (a.config.stream .bare D) r v.1 r' := by
  have hplanned : Yields a.planBare r fun plan r' =>
      a.Poised (a.config.stream .bare D) r plan r' := by
    intro plan r' hx
    obtain ⟨n, ht⟩ := a.planBare_takes r _ _ hx
    obtain ⟨_, rfl, hchip, hstore, hbuf, hserves⟩ := (a.planBare_verdict hf ht hD).ok hx
    have hput := Store.value?_put hf.store.plain .bank2Address
    refine ⟨hserves, Nat.zero_le _, by rw [hbuf], ⟨hchip.faultless hf.chip, hstore.faultless
      (Store.faultless_put hf.store _ _)⟩, hchip.size, (hstore.value? _).trans (hput _ _),
      a.wellFormed_barePlan _, fun p hp => ?_, a.bareTarget, ?_, ?_⟩
    · obtain rfl := List.mem_singleton.1 hp
      exact Placement.regular_bare
    · exact Placement.regionStart?_bare
    · unfold Config.addressOf bareTarget
      cases a.running.other with
      | bank1 => rfl
      | bank2 => exact (hstore.value? _).trans (hput _ _)
  exact hplanned.bind fun _ _ h => Yields.pure h

theorem plan_poised [Link σ] (a : Attempt) {r : Rig σ} {D : Bytes} (hD : Link.Serves r.link D)
    (hf : r.board.Faultless) : Yields (a.plan a.config.flow) r fun v r' =>
      a.Poised (a.config.stream a.config.flow D) r v.1 r' := by
  cases a.config.flow with
  | container => exact a.planContainer_poised hD hf
  | bare => exact a.planBare_poised hD hf

section
variable [Link σ₁] [Link σ₂] {r₁ : Rig σ₁} {r₂ : Rig σ₂} {D : Bytes} {i : Nat} {y : UInt8}
  {plan : Plan} {header : Option TargetHeader} {t₁ : Rig σ₁} {p : Placement}

/-- The image that the byte belongs to lies behind the header block, which has the plan. -/
theorem plan_container_set (a : Attempt) (hl : r₁.Level r₂) (hD₁ : Link.Serves r₁.link D)
    (hD₂ : Link.Serves r₂.link (D.set i y)) (hlen : r₁.buffer.length = r₂.buffer.length)
    (hx : a.plan .container r₁ = .ok (plan, header) t₁) (hp : p ∈ plan.placements)
    (hlead : a.config.lead .container ≤ i) (hi : p.Takes (i - a.config.lead .container)) :
    ∃ t₂, a.plan .container r₂ = .ok (plan, header) t₂ := by
  obtain ⟨⟨plan', t⟩, u₁, hplan, hx⟩ := bind_eq_ok.1 hx
  cases hx
  have h := a.planContainer_yields hD₁ hl.faultless.store.plain _ _ hplan
  obtain ⟨d, hd, hblockLen, hle⟩ := TargetHeader.blockLen_of_parse h.parsed
  obtain ⟨hw, _, hstart, _⟩ := Plan.ofTarget_eq_ok h.plan
  cases hblockLen.symm.trans hstart
  have hbehind := (hw.ordered.le_streamOffset p hp)
  have hfirst := hi.1
  obtain ⟨_, _, t₂, hx₁, hx₂, _⟩ | ⟨_, _, _, hx₁, _⟩ :=
    (a.planContainer_set hl hD₁ hD₂ hlen hd hle (by omega)).cases
  · cases hplan.symm.trans hx₁
    exact ⟨t₂, bind_eq_ok.2 ⟨_, t₂, hx₂, rfl⟩⟩
  · cases hplan.symm.trans hx₁

/-- The plan for a bare image is in the file info. -/
theorem plan_bare_set (a : Attempt) (hl : r₁.Level r₂) (hD₁ : Link.Serves r₁.link D)
    (hD₂ : Link.Serves r₂.link (D.set i y))
    (htakes : ∃ n, Link.Takes [a.running.other.toWord.toUInt8] r₂.link n)
    (hx : a.plan .bare r₁ = .ok (plan, header) t₁) (hlead : a.config.lead .bare ≤ i) :
    ∃ t₂, a.plan .bare r₂ = .ok (plan, header) t₂ := by
  obtain ⟨plan', u₁, hplan, hx⟩ := bind_eq_ok.1 hx
  cases hx
  obtain ⟨n₁, ht₁⟩ := a.planBare_takes r₁ _ _ hplan
  obtain ⟨n₂, ht₂⟩ := htakes
  have hf₂ := hl.same.faultless hl.faultless
  have hbehind : FileInfo.length ≤ i := hlead
  have hleading : FileInfo.leading (D.set i y) = FileInfo.leading D := by
    rw [FileInfo.leading, List.take_set_of_le hbehind, FileInfo.leading]
  obtain ⟨hplans, rfl, _⟩ := (a.planBare_verdict hl.faultless ht₁ hD₁).ok hplan
  have hplans₂ : a.PlansBare r₂.board (D.set i y) :=
    ⟨hplans.settleable.same hl.same hl.faultless, by rw [List.length_set]; exact hplans.info,
      hleading ▸ hplans.fits⟩
  have hverdict := a.planBare_verdict hf₂ ht₂ hD₂
  cases hx₂ : a.planBare r₂ with
  | ok plan₂ t₂ =>
    obtain ⟨_, rfl, _⟩ := hverdict.ok hx₂
    exact ⟨t₂, bind_eq_ok.2 ⟨_, t₂, hx₂, by rw [hleading]; rfl⟩⟩
  | error f t₂ => exact absurd hplans₂ (hverdict.error hx₂)

end

/-! ## The installation -/

/-- A plan that is accepted is rejected by the last of its checks once the byte has changed. -/
theorem Rejected.of_set {a : Attempt} {C : Bytes} {plan : Plan} {size i : Nat} {y : UInt8}
    {f : Failure} (h : a.Rejected (C.set i y) plan size f)
    (haccepted : a.Accepted C plan size) : f = ⟨.verify, .checksumMismatch⟩ := by
  cases h with
  | region h => exact absurd haccepted.canErase h
  | short _ h =>
    refine absurd (fun p hp => ?_) h
    unfold Placement.Whole
    rw [List.length_set]
    exact haccepted.whole p hp
  | sum => rfl

theorem not_accepted_set {a : Attempt} {C : Bytes} {plan : Plan} {size i : Nat} {y : UInt8}
    {p : Placement} (haccepted : a.Accepted C plan size) (hp : p ∈ plan.placements)
    (hi : p.Takes i) (hlt : i < C.length) (hy : C[i] ≠ y) :
    ¬a.Accepted (C.set i y) plan size := fun h =>
  hy ((Placement.sumsUp_set hi hlt (haccepted.sumsUp p hp)).1 (h.sumsUp p hp))

section
variable [Link σ]

theorem install_accepted (a : Attempt) (flow : Flow) {C : Bytes} {r r' : Rig σ} {plan : Plan}
    (h : a.Poised C r plan r') (hs : a.aperture.base.toNat + r.board.chip.size ≤ UInt32.size)
    (hapart : plan.placements.Pairwise Placement.Apart) :
    Yields (a.install flow plan) r' fun _ _ =>
      r.buffer ≠ [] ∧ a.Accepted C plan r.board.chip.size := by
  rw [install_eq]
  refine Yields.bind (P := fun _ _ => r.buffer ≠ [] ∧ a.Accepted C plan r.board.chip.size)
    (fun s u hx => ?_) fun _ _ h _ _ _ => h
  have hne := a.deliver_buffer plan r' s u hx
  have hbuffer : r.buffer ≠ [] :=
    List.length_pos_iff.1 (h.buffer ▸ List.length_pos_iff.2 hne)
  have hverdict := a.deliver_verdict h.serves h.streamStart_le hne h.faultless (h.size ▸ hs)
    h.wellFormed h.regular hapart
  exact ⟨hbuffer, h.size ▸ (hverdict.ok hx).2.1⟩

/-- An attempt that ended with a reboot has passed all checks. -/
theorem run_accepted (a : Attempt) {C : Bytes} {r r' : Rig σ} {plan : Plan}
    {header : Option TargetHeader} (h : a.Poised C r plan r')
    (hs : a.aperture.base.toNat + r.board.chip.size ≤ UInt32.size)
    (hapart : plan.placements.Pairwise Placement.Apart)
    (hx : a.plan a.config.flow r = .ok (plan, header) r')
    (hreboot : (a.run r).1.isReboot = true) :
    r.buffer ≠ [] ∧ a.Accepted C plan r.board.chip.size := by
  obtain ⟨f, r₁, hx', _⟩ | ⟨plan', header', r₁, hx', hrun⟩ := a.run_cases r
  · cases hx.symm.trans hx'
  · cases hx.symm.trans hx'
    obtain ⟨r₂, hy, _⟩ | ⟨f, r₂, _, hrun⟩ := hrun
    · exact a.install_accepted a.config.flow h hs hapart _ _ hy
    · obtain ⟨o, b, habandon⟩ := (a.abandon_ends plan f r₂).outcome
      rw [hrun, habandon] at hreboot
      cases hreboot

/-- A plan that can be carried out up to the check of its sums fails there, and is rolled back. -/
theorem install_mismatched (a : Attempt) (flow : Flow) {C : Bytes} {r r' : Rig σ} {plan : Plan}
    (h : a.Poised C r plan r') (hbuffer : r.buffer ≠ [])
    (hs : a.aperture.base.toNat + r.board.chip.size ≤ UInt32.size)
    (hapart : plan.placements.Pairwise Placement.Apart)
    (hcan : ∀ p ∈ plan.placements, p.CanErase a.aperture r.board.chip.size)
    (hrejected : ¬a.Accepted C plan r.board.chip.size)
    (hsum : ∀ f, a.Rejected C plan r.board.chip.size f → f = ⟨.verify, .checksumMismatch⟩) :
    ∃ r₁, a.install flow plan r' = .error ⟨.verify, .checksumMismatch⟩ r₁ ∧
      ¬∃ e b, Board.rollBack a.aperture plan r₁.board = .error e b := by
  have hne : r'.buffer ≠ [] :=
    List.length_pos_iff.1 (h.buffer ▸ List.length_pos_iff.2 hbuffer)
  have hverdict := a.deliver_verdict h.serves h.streamStart_le hne h.faultless (h.size ▸ hs)
    h.wellFormed h.regular hapart
  rw [h.size] at hverdict
  rw [install_eq]
  cases hx : a.deliver plan r' with
  | ok s r₁ => exact absurd (hverdict.ok hx).2.1 hrejected
  | error f r₁ =>
    obtain ⟨hkept, hf⟩ := hverdict.error hx
    obtain rfl := hsum f hf
    have hroll := Board.rollBack_verdict hkept.faultless.chip h.wellFormed
      (hkept.size ▸ h.size ▸ hcan)
    refine ⟨r₁, by simp only [Bind.bind, EStateM.bind, hx], ?_⟩
    rintro ⟨e, b, hb⟩
    exact nomatch hroll.error hb

theorem run_mismatched (a : Attempt) {C : Bytes} {r r₁ : Rig σ} {plan : Plan}
    {header : Option TargetHeader} (h : a.Poised C r plan r₁) (hbuffer : r.buffer ≠ [])
    (hs : a.aperture.base.toNat + r.board.chip.size ≤ UInt32.size)
    (hapart : plan.placements.Pairwise Placement.Apart)
    (hcan : ∀ p ∈ plan.placements, p.CanErase a.aperture r.board.chip.size)
    (hrejected : ¬a.Accepted C plan r.board.chip.size)
    (hsum : ∀ f, a.Rejected C plan r.board.chip.size f → f = ⟨.verify, .checksumMismatch⟩)
    (hx : a.plan a.config.flow r = .ok (plan, header) r₁) :
    ∃ r', a.run r = (⟨.rollbackFailure, .failed ⟨.verify, .checksumMismatch⟩ true⟩, r') ∧
      r'.board.store.value? .activeBank = r.board.store.value? .activeBank ∧
      ∃ address offset, a.config.addressOf r'.board.store a.running.other = some address ∧
        a.aperture.offset address = .ok offset ∧ offset + sectorSize ≤ r.board.chip.size ∧
        ∀ k, offset ≤ k → k < offset + sectorSize → r'.board.chip.byte k = erasedByte := by
  obtain ⟨r₂, hy, hroll⟩ :=
    a.install_mismatched a.config.flow h hbuffer hs hapart hcan hrejected hsum
  obtain ⟨_, rolledBack, r', habandon, hwords, herased, hundone, _⟩ :=
    a.abandon_failed h.faultless.store.plain h.wellFormed hy
  obtain rfl : rolledBack = true := by
    cases rolledBack with
    | true => rfl
    | false => exact absurd (hundone.1 rfl) hroll
  obtain ⟨address, haddress, hof⟩ := h.address
  obtain ⟨address', offset, haddress', ho, hwithin, herased⟩ := herased rfl
  cases haddress.symm.trans haddress'
  refine ⟨r', by simp only [run, runFlow, hx, hy, habandon], (hwords _).trans h.active, address,
    offset, ?_, ho, h.size ▸ hwithin, herased⟩
  rw [← hof]
  cases a.running.other with
  | bank1 => rfl
  | bank2 => exact hwords _

end

section
variable [Link σ₁] [Link σ₂] {r₁ : Rig σ₁} {r₂ : Rig σ₂} {D : Bytes} {i : Nat} {y : UInt8}
  {plan : Plan} {header : Option TargetHeader} {t₁ : Rig σ₁} {p : Placement}

theorem plan_set (a : Attempt) (hl : r₁.Level r₂) (hD₁ : Link.Serves r₁.link D)
    (hD₂ : Link.Serves r₂.link (D.set i y)) (hlen : r₁.buffer.length = r₂.buffer.length)
    (htakes : a.config.flow = .bare →
      ∃ n, Link.Takes [a.running.other.toWord.toUInt8] r₂.link n)
    (hx : a.plan a.config.flow r₁ = .ok (plan, header) t₁) (hp : p ∈ plan.placements)
    (hlead : a.config.lead a.config.flow ≤ i)
    (hi : p.Takes (i - a.config.lead a.config.flow)) :
    ∃ t₂, a.plan a.config.flow r₂ = .ok (plan, header) t₂ := by
  cases hflow : a.config.flow with
  | container =>
    rw [hflow] at hx hlead hi
    exact a.plan_container_set hl hD₁ hD₂ hlen hx hp hlead hi
  | bare =>
    rw [hflow] at hx hlead
    exact a.plan_bare_set hl hD₁ hD₂ (htakes hflow) hx hlead

/-- One changed byte is caught. If an attempt ends with a reboot, its images share no flash, and the
stream of another attempt differs from its stream in one byte of an image, then the other attempt
fails at the check of the images, and its rollback is done: the active bank is as it was, and the
first sector of the target, where the signature would be, is erased. -/
theorem run_set_fails (a : Attempt) (hD₁ : Link.Serves r₁.link D)
    (hD₂ : Link.Serves r₂.link (D.set i y)) (hi : i < D.length) (hy : D[i] ≠ y)
    (htakes : a.config.flow = .bare →
      ∃ n, Link.Takes [a.running.other.toWord.toUInt8] r₂.link n)
    (hb : r₁.board.Same r₂.board) (hf : r₁.board.Faultless)
    (hs : a.aperture.base.toNat + r₁.board.chip.size ≤ UInt32.size)
    (hlen : r₁.buffer.length = r₂.buffer.length) (hreboot : (a.run r₁).1.isReboot = true)
    (hx : a.plan a.config.flow r₁ = .ok (plan, header) t₁)
    (hapart : plan.placements.Pairwise Placement.Apart) (hp : p ∈ plan.placements)
    (hlead : a.config.lead a.config.flow ≤ i)
    (htaken : p.Takes (i - a.config.lead a.config.flow)) :
    (a.run r₂).1 = ⟨.rollbackFailure, .failed ⟨.verify, .checksumMismatch⟩ true⟩ ∧
    (a.run r₂).2.board.store.value? .activeBank = r₁.board.store.value? .activeBank ∧
    ∃ address offset,
      a.config.addressOf (a.run r₂).2.board.store a.running.other = some address ∧
      a.aperture.offset address = .ok offset ∧ offset + sectorSize ≤ r₁.board.chip.size ∧
      ∀ k, offset ≤ k → k < offset + sectorSize →
        (a.run r₂).2.board.chip.byte k = erasedByte := by
  have hsize : r₂.board.chip.size = r₁.board.chip.size := hb.chip.size
  have h₁ := a.plan_poised hD₁ hf _ _ hx
  obtain ⟨hbuffer, haccepted⟩ := a.run_accepted h₁ hs hapart hx hreboot
  obtain ⟨t₂, hx₂⟩ := a.plan_set ⟨hb, hf⟩ hD₁ hD₂ hlen htakes hx hp hlead htaken
  have h₂ := a.plan_poised hD₂ (hb.faultless hf) _ _ hx₂
  rw [a.config.stream_set hlead] at h₂
  -- The other stream has the images whole, and only the one sum is off.
  have hlt : i - a.config.lead a.config.flow < (a.config.stream a.config.flow D).length := by
    rw [Config.stream_eq, List.length_drop]
    omega
  have hbyte : (a.config.stream a.config.flow D)[i - a.config.lead a.config.flow] ≠ y := by
    simp only [Config.stream_eq, List.getElem_drop, Nat.add_sub_cancel' hlead]
    exact hy
  have hbuffer₂ : r₂.buffer ≠ [] :=
    List.length_pos_iff.1 (hlen ▸ List.length_pos_iff.2 hbuffer)
  obtain ⟨r', hrun, hwords, address, offset, hof, ho, hwithin, herased⟩ :=
    a.run_mismatched h₂ hbuffer₂ (hsize ▸ hs) hapart (hsize ▸ haccepted.canErase)
      (hsize ▸ not_accepted_set haccepted hp htaken hlt hbyte)
      (fun f hf => (hsize ▸ hf).of_set haccepted) hx₂
  rw [hrun]
  exact ⟨rfl, hwords.trans (hb.store.value? _), address, offset, hof, ho, hsize ▸ hwithin, herased⟩

end

/-- The last byte but one of the sample. -/
theorem run_set_fails_sample :
    (Sample.attempt.run (Sample.rig Sample.container)).1.isReboot = true ∧
    (Sample.attempt.run (Sample.rig (Sample.container.set 67 0))).1 =
      ⟨.rollbackFailure, .failed ⟨.verify, .checksumMismatch⟩ true⟩ ∧
    ∃ offset, ∀ k, offset ≤ k → k < offset + sectorSize →
      (Sample.attempt.run (Sample.rig (Sample.container.set 67 0))).2.board.chip.byte k =
        erasedByte := by
  have hD : ∀ D, Link.Serves (Sample.rig D).link D :=
    fun D => Scripted.serves (by simp [Sample.rig]) rfl
  have hf : (Sample.rig Sample.container).board.Faultless :=
    ⟨fun _ _ => rfl, rfl, fun _ => rfl, fun _ => rfl⟩
  have hreboot : (Sample.attempt.run (Sample.rig Sample.container)).1.isReboot = true := by
    decide +kernel
  obtain ⟨f, t₁, _, hrun⟩ | ⟨plan, header, t₁, hx, _⟩ :=
    Sample.attempt.run_cases (Sample.rig Sample.container)
  · rw [hrun] at hreboot
    cases hreboot
  obtain ⟨t, h⟩ := Sample.attempt.plan_container_yields (hD _) hf.store.plain _ _ hx
  obtain rfl : Sample.header = t := Except.ok.inj (Sample.parse_container.symm.trans h.parsed)
  obtain ⟨_, _, _, primary, hprimary, _, hplacements⟩ := Plan.ofTarget_eq_ok h.plan
  have hmem : Placement.ofSecondary Sample.secondaryHeader 0x2000 ∈ plan.placements := by
    rcases hplacements with hps | hps <;> rw [hps] <;> simp [Sample.attempt]
  obtain ⟨hreport, _, _, offset, _, _, _, herased⟩ := Sample.attempt.run_set_fails (hD _)
    (hD (Sample.container.set 67 0)) (by decide) (by decide) (fun h => absurd h (by decide))
    (.refl _) hf (by decide) rfl hreboot hx
    (Plan.apart_of_disjoint hprimary hplacements Sample.disjoint) hmem (Nat.zero_le _)
    ⟨by decide, by decide⟩
  exact ⟨hreboot, hreport, offset, herased⟩

end Attempt

end DualBank
