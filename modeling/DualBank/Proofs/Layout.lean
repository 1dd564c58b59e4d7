import DualBank.Flash.Aperture
import DualBank.Plan

/-! Where the images of a plan are: ranges of the stream, which follow one another, and regions of
flash, whole sectors of which are erased. -/
namespace DualBank

/-- The sectors that cover `len` bytes, and one at least. -/
def sectorsOf (len : Nat) : Nat := max 1 ((len + (sectorSize - 1)) / sectorSize) * sectorSize

theorem le_sectorsOf (len : Nat) : len ≤ sectorsOf len := by
  simp only [sectorsOf, sectorSize]; omega

theorem sectorSize_le_sectorsOf (len : Nat) : sectorSize ≤ sectorsOf len := by
  simp only [sectorsOf, sectorSize]; omega

namespace Placement

/-- Length of the image in the stream, and of its region in flash. -/
def span (p : Placement) : Nat := p.payloadLen.toNat + p.signatureLen.toNat

/-- Stream position one past the image. -/
def streamStop (p : Placement) : Nat := p.streamOffset.toNat + p.span

/-- What every image of a plan is: its region starts at an address and its range of the stream
ends at one, and it has no longer signature than there are. -/
structure Fits (p : Placement) : Prop where
  signature_le : p.signatureLen.toNat ≤ Signature.length
  signature_le_destination : p.signatureLen.toNat ≤ p.destination.toNat
  streamStop_lt : p.streamStop < UInt32.size

theorem regionStart?_eq_some {p : Placement} {start : Word} :
    p.regionStart? = some start ↔ start.toNat + p.signatureLen.toNat = p.destination.toNat :=
  Word.minus?_eq_some

theorem Fits.exists_regionStart {p : Placement} (h : p.Fits) :
    ∃ start, p.regionStart? = some start := by
  have hlt := p.destination.toNat_lt_size
  have hle := h.signature_le_destination
  refine ⟨.ofNat (p.destination.toNat - p.signatureLen.toNat), regionStart?_eq_some.2 ?_⟩
  rw [UInt32.toNat_ofNat_of_lt' (by omega)]
  omega

theorem regionLen?_eq_some {p : Placement} {len : Word} :
    p.regionLen? = some len ↔ len.toNat = p.span :=
  Word.plus?_eq_some

theorem streamEnd?_eq_some {p : Placement} {stop : Word} :
    p.streamEnd? = some stop ↔ stop.toNat = p.streamStop := by
  have hstop := stop.toNat_lt_size
  unfold streamEnd?
  cases h : p.regionLen? with
  | some len =>
    have hlen := regionLen?_eq_some.1 h
    simp only [Option.bind_eq_bind, Option.bind_some, Word.plus?_eq_some, streamStop, hlen]
  | none =>
    have hspan : UInt32.size ≤ p.span := Word.ofNat?_eq_none.1 h
    simp only [Option.bind_eq_bind, Option.bind_none, reduceCtorEq, false_iff, streamStop]
    omega

theorem ofPrimary_eq_ok {h : ImageHeader} {address : Word} {p : Placement}
    (hp : ofPrimary h address = .ok p) :
    p.role = .primary ∧ p.signatureLen = 8 ∧ p.streamOffset = h.offset ∧
      p.expectedChecksum = h.checksum ∧ p.span = h.imageLen.toNat ∧
      p.regionStart? = some address := by
  unfold ofPrimary at hp
  dsimp only at hp
  cases hl : h.imageLen.minus? (.ofNat Signature.length) with
  | none => rw [hl] at hp; cases hp
  | some payloadLen =>
    cases hd : address.plus? (.ofNat Signature.length) with
    | none => rw [hl, hd] at hp; cases hp
    | some destination =>
      rw [hl, hd] at hp
      cases hp
      have hspan := Word.minus?_eq_some.1 hl
      have hstart := Word.plus?_eq_some.1 hd
      exact ⟨rfl, rfl, rfl, rfl, hspan, regionStart?_eq_some.2 hstart.symm⟩

end Placement

namespace Plan

/-- The ranges of the stream follow one another from `q` on. -/
def Ordered : Nat → List Placement → Prop
  | _, [] => True
  | q, p :: ps => q ≤ p.streamOffset.toNat ∧ Ordered p.streamStop ps

/-- A plan that was checked. -/
structure WellFormed (plan : Plan) : Prop where
  fits : ∀ p ∈ plan.placements, p.Fits
  ordered : Ordered plan.streamStart.toNat plan.placements
  primary : ∃ p, plan.primary? = some p
  roles : plan.placements.Pairwise fun p p' => p.role ≠ p'.role

theorem checkOrder_eq_ok {q : Word} {ps : List Placement} (h : checkOrder q ps = .ok ())
    (hs : ∀ p ∈ ps, p.signatureLen.toNat ≤ Signature.length) :
    (∀ p ∈ ps, p.Fits) ∧ Ordered q.toNat ps := by
  induction ps generalizing q with
  | nil => exact ⟨by simp, trivial⟩
  | cons p rest ih =>
    have hrest := fun p hp => hs p (List.mem_cons_of_mem _ hp)
    simp only [checkOrder, bind, Except.bind] at h
    by_cases hq : p.streamOffset < q
    · rw [if_pos hq] at h; cases h
    · rw [if_neg hq] at h
      cases he : p.streamEnd? with
      | none => rw [he] at h; cases h
      | some stop =>
        cases hr : p.regionStart? with
        | none => rw [he, hr] at h; cases h
        | some start =>
          rw [he, hr] at h
          have hstop := Placement.streamEnd?_eq_some.1 he
          have hstart := Placement.regionStart?_eq_some.1 hr
          have hlt := stop.toNat_lt_size
          have hle : q.toNat ≤ p.streamOffset.toNat := by
            rw [UInt32.lt_iff_toNat_lt] at hq
            omega
          obtain ⟨hfits, hordered⟩ := ih h hrest
          refine ⟨?_, hle, hstop ▸ hordered⟩
          intro p' hp'
          rcases List.mem_cons.1 hp' with rfl | hp'
          · exact ⟨hs _ List.mem_cons_self, by omega, by omega⟩
          · exact hfits p' hp'

/-- Images in order are accepted. -/
theorem checkOrder_ok {q : Word} {ps : List Placement} (hfits : ∀ p ∈ ps, p.Fits)
    (hordered : Ordered q.toNat ps) : checkOrder q ps = .ok () := by
  induction ps generalizing q with
  | nil => rfl
  | cons p ps ih =>
    obtain ⟨hq, hrest⟩ := hordered
    have hp := hfits p List.mem_cons_self
    have hstop : p.streamEnd? = some (.ofNat p.streamStop) :=
      Placement.streamEnd?_eq_some.2 (UInt32.toNat_ofNat_of_lt' hp.streamStop_lt)
    obtain ⟨_, hstart⟩ := hp.exists_regionStart
    have hnot : ¬p.streamOffset < q := by
      rw [UInt32.lt_iff_toNat_lt]
      omega
    rw [← UInt32.toNat_ofNat_of_lt' hp.streamStop_lt] at hrest
    simp only [checkOrder, if_neg hnot, hstop, hstart]
    exact ih (fun p' hp' => hfits p' (List.mem_cons_of_mem _ hp')) hrest

theorem validated_eq_ok {plan plan' : Plan} (h : plan.validated = .ok plan')
    (hs : ∀ p ∈ plan.placements, p.signatureLen.toNat ≤ Signature.length)
    (hp : ∃ p, plan.primary? = some p)
    (hr : plan.placements.Pairwise fun p p' => p.role ≠ p'.role) :
    plan' = plan ∧ plan.WellFormed := by
  unfold validated at h
  cases ho : checkOrder plan.streamStart plan.placements with
  | error e => rw [ho] at h; cases h
  | ok _ =>
    rw [ho] at h
    cases h
    obtain ⟨hfits, hordered⟩ := checkOrder_eq_ok ho hs
    exact ⟨rfl, hfits, hordered, hp, hr⟩

theorem validated_ok {plan : Plan} (hfits : ∀ p ∈ plan.placements, p.Fits)
    (hordered : Ordered plan.streamStart.toNat plan.placements) : plan.validated = .ok plan := by
  rw [validated, checkOrder_ok hfits hordered]
  rfl

/-- The plan for a container. -/
theorem ofTarget_eq_ok {t : TargetHeader} {bank : Bank} {address secondaryAddress : Word}
    {plan : Plan} (h : ofTarget t bank address secondaryAddress = .ok plan) :
    plan.WellFormed ∧ plan.targetBank = bank ∧ t.blockLen = .ok plan.streamStart.toNat ∧
      ∃ primary, Placement.ofPrimary t.primary address = .ok primary ∧
        plan.primary? = some primary ∧
        match t.secondary with
        | none => plan.placements = [primary]
        | some s =>
          plan.placements = [primary, .ofSecondary s secondaryAddress] ∨
          plan.placements = [.ofSecondary s secondaryAddress, primary] := by
  unfold ofTarget at h
  cases hb : t.blockLen with
  | error e => rw [hb] at h; cases h
  | ok blockLen =>
    have hmap : (Except.ok blockLen).mapError UpdateError.ofContainer = .ok blockLen := rfl
    cases hw : Word.ofNat? blockLen with
    | none => simp only [hb, hmap, bind, Except.bind, hw] at h; cases h
    | some streamStart =>
      cases hp : Placement.ofPrimary t.primary address with
      | error e => simp only [hb, hmap, bind, Except.bind, hw, hp] at h; cases h
      | ok primary =>
        simp only [hb, hmap, bind, Except.bind, hw, hp] at h
        have hstart := Word.ofNat?_eq_some.1 hw
        obtain ⟨hrole, hsig, _⟩ := Placement.ofPrimary_eq_ok hp
        have hsig : primary.signatureLen.toNat ≤ Signature.length := by rw [hsig]; decide
        cases hs : t.secondary with
        | none =>
          simp only [hs] at h
          obtain ⟨rfl, hwf⟩ := validated_eq_ok h (by simpa using hsig)
            ⟨primary, by simp [primary?, hrole]⟩ (by simp)
          exact ⟨hwf, rfl, by rw [hstart], primary, rfl, by simp [primary?, hrole], rfl⟩
        | some s =>
          simp only [hs] at h
          have hsec : (Placement.ofSecondary s secondaryAddress).signatureLen.toNat ≤
            Signature.length := Nat.zero_le _
          split at h
          · obtain ⟨rfl, hwf⟩ := validated_eq_ok h (by simpa using ⟨hsec, hsig⟩)
              ⟨primary, by simp [primary?, hrole, Placement.ofSecondary]⟩
              (by simp [hrole, Placement.ofSecondary])
            refine ⟨hwf, rfl, by rw [hstart], primary, rfl, ?_, .inr rfl⟩
            simp [primary?, hrole, Placement.ofSecondary]
          · obtain ⟨rfl, hwf⟩ := validated_eq_ok h (by simpa using ⟨hsig, hsec⟩)
              ⟨primary, by simp [primary?, hrole]⟩ (by simp [hrole, Placement.ofSecondary])
            exact ⟨hwf, rfl, by rw [hstart], primary, rfl, by simp [primary?, hrole], .inl rfl⟩

/-- A plan for a container has no other images. -/
theorem mem_placements {plan : Plan} {t : TargetHeader} {secondaryAddress : Word}
    {primary : Placement} (hps : match t.secondary with
      | none => plan.placements = [primary]
      | some s =>
        plan.placements = [primary, .ofSecondary s secondaryAddress] ∨
        plan.placements = [.ofSecondary s secondaryAddress, primary]) {p : Placement}
    (hp : p ∈ plan.placements) :
    p = primary ∨ ∃ s, t.secondary = some s ∧ p = .ofSecondary s secondaryAddress := by
  cases hs : t.secondary with
  | none =>
    rw [hs] at hps
    simp only [hps, List.mem_singleton] at hp
    exact .inl hp
  | some s =>
    rw [hs] at hps
    rcases hps with hps | hps <;> simp only [hps, List.mem_cons, List.not_mem_nil, or_false] at hp
    · exact hp.imp id fun h => ⟨s, rfl, h⟩
    · exact hp.symm.imp id fun h => ⟨s, rfl, h⟩

/-- The plan for a bare image. -/
theorem ofBare_eq_ok {bank : Bank} {address len checksum : Word} {plan : Plan}
    (h : ofBare bank address len checksum = .ok plan) :
    plan.WellFormed ∧ plan.streamStart = 0 := by
  obtain ⟨rfl, hwf⟩ := validated_eq_ok h (by simp) ⟨_, rfl⟩ (by simp)
  exact ⟨hwf, rfl⟩

theorem targetBank_ofBare {bank : Bank} {address len checksum : Word} {plan : Plan}
    (h : ofBare bank address len checksum = .ok plan) : plan.targetBank = bank := by
  obtain ⟨rfl, _⟩ := validated_eq_ok h (by simp) ⟨_, rfl⟩ (by simp)
  rfl

/-- Its one image has no signature. -/
theorem placements_ofBare {bank : Bank} {address len checksum : Word} {plan : Plan}
    (h : ofBare bank address len checksum = .ok plan) :
    ∃ p, plan.placements = [p] ∧ p.regionStart? = some address ∧ p.span = len.toNat := by
  obtain ⟨rfl, _⟩ := validated_eq_ok h (by simp) ⟨_, rfl⟩ (by simp)
  exact ⟨_, rfl, Placement.regionStart?_eq_some.2 rfl, rfl⟩

theorem bankAddress?_of_primary {plan : Plan} {p : Placement} (h : plan.primary? = some p) :
    plan.bankAddress? = p.regionStart? := by
  simp only [bankAddress?, h, Option.bind_eq_bind, Option.bind_some]

/-- The bank of a plan starts where the region of its primary image does. -/
theorem WellFormed.bankAddress {plan : Plan} (h : plan.WellFormed) :
    ∃ p ∈ plan.placements, p.role = .primary ∧
      ∃ address, p.regionStart? = some address ∧ plan.bankAddress? = some address := by
  obtain ⟨p, hprimary⟩ := h.primary
  have hp : p ∈ plan.placements := List.mem_of_find?_eq_some hprimary
  obtain ⟨address, hstart⟩ := (h.fits p hp).exists_regionStart
  exact ⟨p, hp, by simpa using List.find?_some hprimary, address, hstart,
    (bankAddress?_of_primary hprimary).trans hstart⟩

theorem bankAddress?_eq_some {plan : Plan} {address : Word}
    (h : plan.bankAddress? = some address) :
    ∃ p ∈ plan.placements, p.regionStart? = some address := by
  simp only [bankAddress?, Option.bind_eq_bind, Option.bind_eq_some_iff] at h
  obtain ⟨p, hp, hs⟩ := h
  exact ⟨p, List.mem_of_find?_eq_some hp, hs⟩

end Plan

namespace Aperture

theorem offset_eq_ok {a : Aperture} {address : Word} {n : Nat} :
    a.offset address = .ok n ↔ a.base.toNat + n = address.toNat := by
  unfold offset
  cases h : address.minus? a.base with
  | none =>
    have hn : ∀ w : Word, w.toNat + a.base.toNat ≠ address.toNat := by
      intro w hw
      rw [Word.minus?_eq_some.2 hw] at h
      cases h
    refine ⟨fun he => (nomatch he), fun he => absurd ?_ (hn (.ofNat n))⟩
    have := address.toNat_lt
    rw [UInt32.toNat_ofNat', Nat.mod_eq_of_lt (by omega)]
    omega
  | some w =>
    have hw := Word.minus?_eq_some.1 h
    simp only [Except.ok.injEq]
    omega

theorem sectors_eq_ok {a : Aperture} {address len : Word} {start stop : Nat} :
    a.sectors address len = .ok (start, stop) ↔
      a.base.toNat + start = address.toNat ∧ stop = start + sectorsOf len.toNat ∧
        start % sectorSize = 0 ∧ len.toNat + (sectorSize - 1) < UInt32.size ∧
        stop < UInt32.size := by
  unfold sectors
  cases h : a.offset address with
  | error e =>
    refine ⟨fun he => (nomatch he), fun he => ?_⟩
    rw [offset_eq_ok.2 he.1] at h
    cases h
  | ok n =>
    rw [offset_eq_ok] at h
    simp only [bind, Except.bind]
    change (if _ then _ else _) = _ ↔ _
    split
    · rename_i hc
      refine ⟨fun he => (nomatch he), fun ⟨ha, hs, hm, hl, hu⟩ => ?_⟩
      obtain rfl : n = start := by omega
      rw [hs, sectorsOf] at hu
      omega
    · rename_i hc
      simp only [pure, Except.pure, Except.ok.injEq, Prod.mk.injEq, sectorsOf]
      constructor
      · rintro ⟨rfl, rfl⟩
        exact ⟨h, rfl, by omega, by omega, by omega⟩
      · rintro ⟨ha, rfl, _⟩
        obtain rfl : n = start := by omega
        exact ⟨rfl, rfl⟩

/-- The byte of the chip is in one of the sectors that hold the image. -/
def Covers (a : Aperture) (p : Placement) (i : Nat) : Prop :=
  p.destination.toNat - p.signatureLen.toNat ≤ a.base.toNat + i ∧
    a.base.toNat + i < p.destination.toNat - p.signatureLen.toNat + sectorsOf p.span

/-- What is erased for an image is covered by it. -/
theorem covers_of_sectors {a : Aperture} {p : Placement} {start len : Word} {lo hi : Nat}
    (hs : p.regionStart? = some start) (hl : p.regionLen? = some len)
    (hr : a.sectors start len = .ok (lo, hi)) {i : Nat} (hlo : lo ≤ i) (hhi : i < hi) :
    a.Covers p i := by
  have hstart := Placement.regionStart?_eq_some.1 hs
  have hlen := Placement.regionLen?_eq_some.1 hl
  obtain ⟨hbase, rfl, _⟩ := sectors_eq_ok.1 hr
  rw [hlen] at hhi
  constructor <;> omega

end Aperture
end DualBank
