import DualBank.Proofs.Purpose

/-! The bank that runs stays whole. An update goes to the other bank, which planning accepts only
where the two do not meet, and the erasures that round up to whole sectors do not reach further,
since both the base of the flash and the start of bank 2 are on sectors. -/
namespace DualBank

variable {σ : Type}

/-- Whole sectors reach no further than the next sector that starts after the image. -/
theorem sectorsOf_le {start len stop : Nat} (hlen : 0 < len) (h : start + len ≤ stop)
    (hstart : start % sectorSize = 0) (hstop : stop % sectorSize = 0) :
    start + sectorsOf len ≤ stop := by
  simp only [sectorsOf, sectorSize] at *
  omega

/-- A call for an image that ends below the next bank stays below it too. -/
theorem Event.For.stays_below {a : Aperture} {p : Placement} {e : Event} {start stop : Word}
    {i : Nat} (he : e.For a p) (hbase : a.base.toNat % sectorSize = 0)
    (hstop : stop.toNat % sectorSize = 0) (hs : p.regionStart? = some start) (hlen : 0 < p.span)
    (hfits : start.toNat + p.span ≤ stop.toNat) (hi : e.Touches i) :
    a.base.toNat + i < stop.toNat := by
  obtain ⟨_, hhi | ⟨hhi, lo, hlo, halign⟩⟩ := he.within hs hi
  · omega
  · -- The image and the next bank both start on a sector, so whole sectors fit in between.
    have hstart : start.toNat % sectorSize = 0 := by
      rw [← hlo, Nat.add_mod, hbase, halign]
      rfl
    have hsectors := sectorsOf_le hlen hfits hstart hstop
    omega

theorem Word.foldlM_plus? {start sum : Word} {ws : List Word}
    (h : ws.foldlM plus? start = some sum) :
    sum.toNat = ws.foldl (fun n w => n + w.toNat) start.toNat := by
  induction ws generalizing start with
  | nil => cases h; rfl
  | cons w ws ih =>
    rw [List.foldlM_cons, Option.bind_eq_bind, Option.bind_eq_some_iff] at h
    obtain ⟨next, hnext, h⟩ := h
    rw [ih h, Word.plus?_eq_some.1 hnext, List.foldl_cons]

namespace Config

/-- Planning takes no address of bank 2 that is not on a sector. -/
theorem checkBank2_eq_ok {address : Word} (h : checkBank2 address = .ok ()) :
    address ≠ erasedWord ∧ address.toNat % sectorSize = 0 := by
  unfold checkBank2 at h
  split at h
  · cases h
  · rename_i hc
    obtain ⟨hne, halign⟩ := not_or.1 hc
    exact ⟨hne, by simpa [isSectorAligned] using halign⟩

theorem checkFits_eq_ok {c : Config} {bank2 imageLen : Word}
    (h : c.checkFits bank2 imageLen = .ok ()) :
    c.bank1Address.toNat + imageLen.toNat ≤ bank2.toNat := by
  unfold checkFits at h
  split at h
  · cases h
  · rename_i gap hgap
    have hsum := Word.minus?_eq_some.1 hgap
    split at h
    · cases h
    · rename_i hfit
      rw [UInt32.lt_iff_toNat_lt] at hfit
      omega

variable {c : Config} {a : Aperture} {b b' : Board}

theorem bank2Address_eq_ok {v : Word} (h : c.bank2Address b = .ok v b') :
    v ≠ erasedWord ∧ v.toNat % sectorSize = 0 := by
  have hcheck : ∀ (v : Word) (b : Board), Yields
      (do MonadExcept.ofExcept (checkBank2 v); return v : Board.Action Word) b
      fun w _ => checkBank2 w = .ok () := by
    intro v b
    exact Yields.bind (Yields.ofExcept (P := fun _ _ => checkBank2 v = .ok ()) fun _ hv => hv)
      fun _ _ hv => Yields.pure hv
  have hread : ∀ b : Board, Yields (Board.readSlot .bank2Address >>= fun v => do
      MonadExcept.ofExcept (checkBank2 v); return v) b fun w _ => checkBank2 w = .ok () :=
    fun b => Yields.self.bind fun v b' _ => hcheck v b'
  have hyields : Yields c.bank2Address b fun w _ => checkBank2 w = .ok () := by
    refine Yields.self.bind fun stored b₁ _ => ?_
    split
    · exact Yields.self.bind fun _ b₂ _ => hread b₂
    · exact hcheck stored b₁
  exact checkBank2_eq_ok (hyields v b' h)

theorem checkClear_eq_ok {bank2 : Word} (h : c.checkClear a bank2 b = .ok () b') :
    ∃ stop, c.bank1End a b = .ok stop b' ∧ stop.toNat ≤ bank2.toNat := by
  obtain ⟨stop, b₁, hstop, h⟩ := bind_eq_ok.1 h
  split at h
  · cases h
  · rename_i hclear
    cases h
    rw [UInt32.lt_iff_toNat_lt] at hclear
    exact ⟨stop, hstop, by omega⟩

theorem addressSum_eq_ok {address sum : Word} {bs : List Word}
    (h : addressSum address bs = .ok sum) :
    sum.toNat = bs.foldl (fun n w => n + w.toNat) address.toNat := by
  unfold addressSum at h
  split at h
  · rename_i s hs
    cases h
    exact Word.foldlM_plus? hs
  · cases h

/-- Bank 1 holds a header at least. -/
theorem bank1End_eq_ok {stop : Word} (h : c.bank1End a b = .ok stop b') :
    c.bank1Address.toNat < stop.toNat := by
  have hyields : Yields (c.bank1End a) b fun stop _ => c.bank1Address.toNat < stop.toNat := by
    refine Yields.self.bind fun _ _ _ => Yields.self.bind fun imageLen _ _ => ?_
    refine Yields.bind (Yields.ofExcept (P := fun data _ => c.bank1Address.toNat ≤ data.toNat)
      fun data hd => ?_) fun data _ hd => ?_
    · rw [addressSum_eq_ok hd]
      simp only [List.foldl_cons, List.foldl_nil]
      omega
    · refine Yields.self.bind fun _ _ _ => Yields.self.bind fun dataLen _ _ => ?_
      refine Yields.ofExcept fun stop hs => ?_
      have hlen : (Bank.imageHeaderLen).toNat = 0x20 := rfl
      rw [addressSum_eq_ok hs]
      simp only [List.foldl_cons, List.foldl_nil, hlen]
      omega
  exact hyields stop b' h

/-- The target of a container, and how it lies to the bank that runs. -/
theorem resolve_eq_ok {running : Bank} {h : ImageHeader} {v : Word}
    (hr : c.resolve a running h b = .ok v b') : v = h.flashAddress ∧
      ∃ bank2 b₁, c.bank2Address b = .ok bank2 b₁ ∧
        (running = .bank1 ∧ v = bank2 ∧
          (∃ stop b₂, c.bank1End a b₁ = .ok stop b₂ ∧ stop.toNat ≤ bank2.toNat) ∨
        running = .bank2 ∧ v = c.bank1Address ∧
          c.bank1Address.toNat + h.imageLen.toNat ≤ bank2.toNat) := by
  obtain ⟨w, b₀, htarget, hr⟩ := bind_eq_ok.1 hr
  split at hr
  · cases hr
  · rename_i hlinked
    cases hr
    refine ⟨Decidable.not_not.1 hlinked, ?_⟩
    obtain ⟨bank2, b₁, hbank2, htarget⟩ := bind_eq_ok.1 htarget
    refine ⟨bank2, b₁, hbank2, ?_⟩
    cases running with
    | bank1 =>
      obtain ⟨_, b₂, hclear, htarget⟩ := bind_eq_ok.1 htarget
      split at htarget
      · cases htarget
      · cases htarget
        obtain ⟨stop, hstop, hle⟩ := checkClear_eq_ok hclear
        exact .inl ⟨rfl, rfl, stop, _, hstop, hle⟩
    | bank2 =>
      obtain ⟨_, b₂, hfits, htarget⟩ := bind_eq_ok.1 htarget
      split at htarget
      · cases htarget
      · cases htarget
        refine .inr ⟨rfl, rfl, checkFits_eq_ok ?_⟩
        cases hx : c.checkFits bank2 h.imageLen with
        | ok _ => rfl
        | error e => rw [hx] at hfits; cases hfits

end Config

namespace Attempt

/-- The flash that the running bank takes up: bank 1 as far as its header says, or all of it from
the address of bank 2 on. -/
def extent (a : Attempt) : Board.Action (Word × Option Word) := do
  let bank2 ← a.config.bank2Address
  match a.running with
  | .bank1 => do
    let stop ← a.config.bank1End a.aperture
    return (a.config.bank1Address, some stop)
  | .bank2 => return (bank2, none)

/-- The address is in the running bank, as the device has it. -/
def Occupies (a : Attempt) (b : Board) (n : Nat) : Prop :=
  match a.extent b with
  | .ok (start, stop) _ => start.toNat ≤ n ∧ ∀ w, stop = some w → n < w.toNat
  | .error _ _ => False

variable {a : Attempt} {b b' : Board}

theorem occupies_iff {start : Word} {stop : Option Word} (h : a.extent b = .ok (start, stop) b')
    (n : Nat) : a.Occupies b n ↔ start.toNat ≤ n ∧ ∀ w, stop = some w → n < w.toNat := by
  rw [Occupies, h]

/-- Once the target of a container is resolved it is known where the running bank is: bank 1 ends
where the target begins or before, or bank 2 begins where the image for bank 1 ends or later. -/
theorem extent_of_resolve {h : ImageHeader} {address : Word}
    (hr : a.config.resolve a.aperture a.running h b = .ok address b') : ∃ bank2 b₁ b₂,
      a.config.bank2Address b = .ok bank2 b₁ ∧ bank2.toNat % sectorSize = 0 ∧
      (a.running = .bank1 ∧ address = bank2 ∧
        (∃ stop : Word, a.config.bank1Address.toNat < stop.toNat ∧ stop.toNat ≤ bank2.toNat ∧
          a.extent b = .ok (a.config.bank1Address, some stop) b₂) ∨
      a.running = .bank2 ∧ address = a.config.bank1Address ∧
        a.config.bank1Address.toNat + h.imageLen.toNat ≤ bank2.toNat ∧
        a.extent b = .ok (bank2, none) b₂) := by
  obtain ⟨_, bank2, b₁, hbank2, hbanks⟩ := Config.resolve_eq_ok hr
  have haligned := (Config.bank2Address_eq_ok hbank2).2
  obtain ⟨hrun, haddress, stop, b₂, hstop, hle⟩ | ⟨hrun, haddress, hfits⟩ := hbanks
  · refine ⟨bank2, b₁, b₂, hbank2, haligned, .inl ⟨hrun, haddress, stop,
      Config.bank1End_eq_ok hstop, hle, bind_eq_ok.2 ⟨bank2, b₁, hbank2, ?_⟩⟩⟩
    rw [hrun]
    exact bind_eq_ok.2 ⟨stop, b₂, hstop, rfl⟩
  · refine ⟨bank2, b₁, b₁, hbank2, haligned, .inr ⟨hrun, haddress, hfits,
      bind_eq_ok.2 ⟨bank2, b₁, hbank2, ?_⟩⟩⟩
    rw [hrun]
    rfl

/-- No call for the primary image of a container touches the running bank. -/
theorem for_primary_spares {h : ImageHeader} {address : Word} {p : Placement} {e : Event} {i : Nat}
    (hbase : a.aperture.base.toNat % sectorSize = 0)
    (hr : a.config.resolve a.aperture a.running h b = .ok address b')
    (hp : Placement.ofPrimary h address = .ok p) (he : e.For a.aperture p) (hi : e.Touches i) :
    ¬a.Occupies b (a.aperture.base.toNat + i) := by
  obtain ⟨_, hsig, _, _, hspan, hstart⟩ := Placement.ofPrimary_eq_ok hp
  obtain ⟨bank2, _, _, _, haligned, hbanks⟩ := extent_of_resolve hr
  obtain ⟨_, rfl, stop, _, hle, hextent⟩ | ⟨_, rfl, hfits, hextent⟩ := hbanks
  · rw [occupies_iff hextent]
    rintro ⟨_, hbelow⟩
    have hlo := (he.within hstart hi).1
    have hhi := hbelow stop rfl
    omega
  · rw [occupies_iff hextent]
    rintro ⟨habove, _⟩
    have hlen : 0 < p.span := by
      simp only [Placement.span, hsig]
      exact Nat.lt_of_lt_of_le (by decide : 0 < (8 : Word).toNat) (Nat.le_add_left _ _)
    rw [← hspan] at hfits
    have hlt := he.stays_below hbase haligned hstart hlen hfits hi
    omega

/-- A container was planned on this device: there its target was resolved, for which the plan is. -/
def PlannedOn (a : Attempt) (b : Board) (v : Plan × TargetHeader) : Prop :=
  ∃ address b', a.config.resolve a.aperture a.running v.2.primary b = .ok address b' ∧
    Plan.ofTarget v.2 a.running.other address a.config.secondaryAddress = .ok v.1

theorem PlannedOn.signed {v : Plan × TargetHeader} (h : a.PlannedOn b v) :
    Signed .container v.1 := by
  obtain ⟨address, _, _, hplan⟩ := h
  obtain ⟨_, _, _, primary, hprimary, hfind, _⟩ := Plan.ofTarget_eq_ok hplan
  intro _ p hp
  cases hfind.symm.trans hp
  rw [(Placement.ofPrimary_eq_ok hprimary).2.1]
  rfl

/-- The extent of the running bank is known, and no call for the primary image touches it. -/
theorem PlannedOn.spares {v : Plan × TargetHeader} (h : a.PlannedOn b v)
    (hbase : a.aperture.base.toNat % sectorSize = 0) :
    (∃ bank b', a.extent b = .ok bank b') ∧ ∀ p ∈ v.1.placements, p.role = .primary →
      ∀ e : Event, e.For a.aperture p → ∀ i, e.Touches i →
        ¬a.Occupies b (a.aperture.base.toNat + i) := by
  obtain ⟨address, _, hresolved, hplan⟩ := h
  obtain ⟨_, _, _, primary, hprimary, _, hplacements⟩ := Plan.ofTarget_eq_ok hplan
  have hextent : ∃ bank b', a.extent b = .ok bank b' := by
    obtain ⟨_, _, _, _, _, ⟨_, _, _, _, _, hextent⟩ | ⟨_, _, _, hextent⟩⟩ :=
      extent_of_resolve hresolved
    · exact ⟨_, _, hextent⟩
    · exact ⟨_, _, hextent⟩
  refine ⟨hextent, fun p hp hrole e he i hi => ?_⟩
  obtain rfl | ⟨s, _, rfl⟩ := Plan.mem_placements hplacements hp
  · exact for_primary_spares hbase hresolved hprimary he hi
  · cases hrole

variable [Link σ]

/-- A container is planned on a device that holds what it held at the start. -/
theorem planContainer_found (a : Attempt) (r : Rig σ) : Yields a.planContainer r fun v _ =>
    ∃ b, Does [] r.board b ∧ a.PlannedOn b v := by
  have hblock : ∀ r₀ : Rig σ, Does [] r.board r₀.board →
      Yields a.planBlock r₀ fun v _ => ∃ b, Does [] r.board b ∧ a.PlannedOn b v := by
    intro r₀ h₀
    refine ((Rig.Quiet.receiveHeader.during _).yields r₀).bind fun block r₁ h₁ => ?_
    refine (((Rig.Quiet.ofExcept _).during _).yields r₁).bind fun header r₂ h₂ => ?_
    refine Yields.bind (P := fun address _ => ∃ b', a.config.resolve a.aperture a.running
      header.primary r₂.board = .ok address b') (Yields.during (Yields.onBoard
        fun address b' hx => ⟨b', hx⟩)) fun address r₃ ⟨b', hresolved⟩ => ?_
    refine Yields.bind (P := fun plan _ => Plan.ofTarget header a.running.other address
      a.config.secondaryAddress = .ok plan) (Yields.during (Yields.ofExcept fun _ => id))
      fun plan r₄ hplan => ?_
    exact Yields.pure ⟨r₂.board, (h₀.trans h₁).trans h₂, address, b', hresolved, hplan⟩
  rw [planContainer_eq]
  split
  · exact ((Rig.Quiet.receiveInfo.during _).yields r).bind fun _ r₀ h₀ => hblock r₀ h₀
  · exact hblock r (.refl _)

theorem plan_container_found (a : Attempt) (r : Rig σ) : Yields (a.plan .container) r fun v _ =>
    ∃ header b, v.2 = some header ∧ Does [] r.board b ∧ a.PlannedOn b (v.1, header) :=
  (a.planContainer_found r).bind fun v _ h => Yields.pure ⟨v.2, h.choose, rfl, h.choose_spec⟩

theorem signed_of_container (a : Attempt) (hflow : a.config.flow = .container) {plan : Plan}
    {header : Option TargetHeader} {r r₁ : Rig σ}
    (hx : a.plan a.config.flow r = .ok (plan, header) r₁) : Signed a.config.flow plan := by
  rw [hflow] at hx ⊢
  obtain ⟨_, _, _, _, hplanned⟩ := a.plan_container_found r _ _ hx
  exact hplanned.signed

/-- Once a container is planned, each call of the attempt is the store's own or for an image. -/
theorem run_planned_tends (a : Attempt) (hflow : a.config.flow = .container) {plan : Plan}
    {header : Option TargetHeader} {r r₁ : Rig σ}
    (hx : a.plan .container r = .ok (plan, header) r₁) :
    Tends a.config a.aperture plan.placements r.board (a.run r).2.board := by
  obtain ⟨f, r₂, hy, _⟩ | ⟨plan', header', r₂, hy, htends⟩ :=
    a.run_tends (a.signed_of_container hflow) r
  · rw [hflow, hx] at hy
    cases hy
  · rw [hflow, hx] at hy
    cases hy
    exact htends

end Attempt
end DualBank
