import DualBank.Proofs.Packing
import DualBank.Proofs.Standing

/-! The secondary image and the banks. Its flash address comes from the configuration and its length
from the container, and planning holds neither against the banks. So it is the configuration and
the container that keep the two apart: its sectors meet a bank exactly if the bank begins in
them. -/
namespace DualBank

variable {σ : Type}

/-- The addresses of the sectors that are erased for the image. -/
def Placement.InSectors (p : Placement) (n : Nat) : Prop :=
  p.destination.toNat - p.signatureLen.toNat ≤ n ∧
    n < p.destination.toNat - p.signatureLen.toNat + sectorsOf p.span

instance (p : Placement) : DecidablePred p.InSectors := fun _ => inferInstanceAs (Decidable (_ ∧ _))

theorem Event.For.inSectors {a : Aperture} {p : Placement} {e : Event} (h : e.For a p)
    {start : Word} (hs : p.regionStart? = some start) {i : Nat} (hi : e.Touches i) :
    p.InSectors (a.base.toNat + i) := by
  have hstart := Placement.regionStart?_eq_some.1 hs
  have hspan := le_sectorsOf p.span
  obtain ⟨hlo, hhi⟩ := h.within hs hi
  constructor
  · omega
  · obtain hhi | ⟨hhi, _⟩ := hhi <;> omega

/-- The addresses begin at this one and have no gaps. -/
structure StartsAt (P : Nat → Prop) (first : Nat) : Prop where
  mem : P first
  le : ∀ n, P n → first ≤ n
  below : ∀ m n, first ≤ m → m ≤ n → P n → P m

theorem StartsAt.not_below {P : Nat → Prop} {first n : Nat} (h : StartsAt P first)
    (hn : n < first) : ¬P n := fun hP => Nat.not_le.2 hn (h.le n hP)

/-- A stretch that starts elsewhere meets the addresses exactly if they begin in it. -/
theorem StartsAt.avoids_iff {P : Nat → Prop} {first s len : Nat} (h : StartsAt P first)
    (hs : ¬P s) :
    (∀ n, s ≤ n → n < s + len → ¬P n) ↔ ¬(s < first ∧ first < s + len) := by
  constructor
  · rintro havoids ⟨hlo, hhi⟩
    exact havoids first (Nat.le_of_lt hlo) hhi h.mem
  · intro houtside n hlo hhi hn
    have hle := h.le n hn
    by_cases hbefore : s < first
    · exact houtside ⟨hbefore, by omega⟩
    · exact hs (h.below s n (by omega) hlo hn)

theorem Placement.inSectors_startsAt {p : Placement} {start : Word}
    (h : p.regionStart? = some start) : StartsAt p.InSectors start.toNat := by
  have hstart := regionStart?_eq_some.1 h
  have hsectors := sectorSize_le_sectorsOf p.span
  have hpos : 0 < sectorSize := by decide
  constructor
  · constructor <;> omega
  · rintro n ⟨hlo, _⟩
    omega
  · rintro m n hm hmn ⟨_, hhi⟩
    constructor <;> omega

theorem Placement.inSectors_iff {p : Placement} {start : Word} (h : p.regionStart? = some start)
    (n : Nat) : p.InSectors n ↔ start.toNat ≤ n ∧ n < start.toNat + sectorsOf p.span := by
  have hstart := regionStart?_eq_some.1 h
  rw [InSectors, show p.destination.toNat - p.signatureLen.toNat = start.toNat by omega]

/-- The sectors of an image that starts in neither bank are apart from both, exactly if neither bank
begins in them. -/
theorem Placement.avoids_both_iff {p : Placement} {start : Word}
    (hregion : p.regionStart? = some start) {P Q : Nat → Prop} {first second : Nat}
    (hP : StartsAt P first) (hQ : StartsAt Q second) (hp : ¬P start.toNat) (hq : ¬Q start.toNat) :
    (∀ n, p.InSectors n → ¬P n ∧ ¬Q n) ↔
      ¬(start.toNat < first ∧ first < start.toNat + sectorsOf p.span) ∧
      ¬(start.toNat < second ∧ second < start.toNat + sectorsOf p.span) := by
  simp only [inSectors_iff hregion, and_imp, imp_and, forall_and]
  rw [hP.avoids_iff hp, hQ.avoids_iff hq]

namespace Attempt

variable {a : Attempt} {b b' : Board}

theorem occupies_startsAt {start : Word} {stop : Option Word}
    (h : a.extent b = .ok (start, stop) b') (hstop : ∀ w, stop = some w → start.toNat < w.toNat) :
    StartsAt (a.Occupies b) start.toNat := by
  constructor
  · exact (occupies_iff h _).2 ⟨Nat.le_refl _, hstop⟩
  · intro n hn
    exact ((occupies_iff h n).1 hn).1
  · intro m n hm hmn hn
    obtain ⟨_, hbelow⟩ := (occupies_iff h n).1 hn
    exact (occupies_iff h m).2 ⟨hm, fun w hw => Nat.lt_of_le_of_lt hmn (hbelow w hw)⟩

/-- The images of a plan that was made on a device. -/
theorem PlannedOn.images {v : Plan × TargetHeader} (h : a.PlannedOn b v) :
    ∃ address b' primary, a.config.resolve a.aperture a.running v.2.primary b = .ok address b' ∧
      Placement.ofPrimary v.2.primary address = .ok primary ∧ v.1.primary? = some primary ∧
      ∀ p, v.1.secondary? = some p →
        (∃ s, v.2.secondary = some s ∧ p = .ofSecondary s a.config.secondaryAddress) ∧
          ∀ p' ∈ v.1.placements, p' = primary ∨ p' = p := by
  obtain ⟨address, b', hresolved, hplan⟩ := h
  obtain ⟨_, _, _, primary, hprimary, hfind, hplacements⟩ := Plan.ofTarget_eq_ok hplan
  refine ⟨address, b', primary, hresolved, hprimary, hfind, fun p hp => ?_⟩
  have hmem : p ∈ v.1.placements := List.mem_of_find?_eq_some hp
  have hrole : p.role = .secondary := by simpa using List.find?_some hp
  obtain rfl | ⟨s, hs, rfl⟩ := Plan.mem_placements hplacements hmem
  · cases hrole.symm.trans (Placement.ofPrimary_eq_ok hprimary).1
  · refine ⟨⟨s, hs, rfl⟩, fun p' hp' => ?_⟩
    obtain rfl | ⟨s', hs', rfl⟩ := Plan.mem_placements hplacements hp'
    · exact .inl rfl
    · cases hs.symm.trans hs'
      exact .inr rfl

variable [Link σ]

/-- Of the running bank and the one that the primary image goes to, one starts at the address of
bank 1 and the other at that of bank 2, which is no lower. -/
theorem PlannedOn.banks {v : Plan × TargetHeader} {primary : Placement} (h : a.PlannedOn b v)
    (hp : v.1.primary? = some primary) : ∃ bank2 b₁, a.config.bank2Address b = .ok bank2 b₁ ∧
      a.config.bank1Address.toNat ≤ bank2.toNat ∧
      (StartsAt (a.Occupies b) a.config.bank1Address.toNat ∧
          StartsAt primary.InSectors bank2.toNat ∨
        StartsAt (a.Occupies b) bank2.toNat ∧
          StartsAt primary.InSectors a.config.bank1Address.toNat) := by
  obtain ⟨address, _, primary', hresolved, hprimary, hfind, _⟩ := h.images
  cases hfind.symm.trans hp
  have hregion := (Placement.ofPrimary_eq_ok hprimary).2.2.2.2.2
  have hsectors := Placement.inSectors_startsAt hregion
  obtain ⟨bank2, b₁, _, hbank2, _, hbanks⟩ := extent_of_resolve hresolved
  refine ⟨bank2, b₁, hbank2, ?_⟩
  obtain ⟨_, rfl, stop, hlt, hle, hextent⟩ | ⟨_, rfl, hfits, hextent⟩ := hbanks
  · refine ⟨by omega, .inl ⟨occupies_startsAt hextent fun w hw => ?_, hsectors⟩⟩
    cases hw
    exact hlt
  · refine ⟨by omega, .inr ⟨occupies_startsAt hextent fun w hw => ?_, hsectors⟩⟩
    cases hw

/-- What keeps a secondary image from damaging a bank. Each write and erasure of the attempt is the
store's own or is for one of the two images, and all that is for the secondary image stays in its
sectors. If its address is in neither bank, these are apart from the running bank and from the
sectors of the primary image exactly if neither bank begins in them; for an address below bank 1
that means that they end before bank 1 does begin. -/
theorem secondary_apart_iff (a : Attempt) (hflow : a.config.flow = .container) {r r₁ : Rig σ}
    {plan : Plan} {header : TargetHeader} {p : Placement}
    (hx : a.plan .container r = .ok (plan, some header) r₁) (hp : plan.secondary? = some p) :
    ∃ b bank2 b₁ primary ms, Does [] r.board b ∧ a.PlannedOn b (plan, header) ∧
      a.config.bank2Address b = .ok bank2 b₁ ∧ plan.primary? = some primary ∧
      p.regionStart? = some a.config.secondaryAddress ∧
      Does ms r.board (a.run r).2.board ∧
      (∀ e ∈ ms, e.OfStore a.config r.board.store.home? ∨ e.For a.aperture primary ∨
        e.For a.aperture p) ∧
      (∀ e : Event, e.For a.aperture p → ∀ i, e.Touches i →
        p.InSectors (a.aperture.base.toNat + i)) ∧
      (¬a.Occupies b a.config.secondaryAddress.toNat →
        ¬primary.InSectors a.config.secondaryAddress.toNat →
        ((∀ n, p.InSectors n → ¬a.Occupies b n ∧ ¬primary.InSectors n) ↔
          ∀ bank ∈ [a.config.bank1Address, bank2], ¬(a.config.secondaryAddress.toNat < bank.toNat ∧
            bank.toNat < a.config.secondaryAddress.toNat + sectorsOf p.span))) ∧
      (a.config.secondaryAddress < a.config.bank1Address →
        ((∀ n, p.InSectors n → ¬a.Occupies b n ∧ ¬primary.InSectors n) ↔
          a.config.secondaryAddress.toNat + sectorsOf p.span ≤ a.config.bank1Address.toNat)) := by
  obtain ⟨header', b, hheader, hb, hplanned⟩ := a.plan_container_found r _ _ hx
  obtain rfl : header = header' := Option.some.inj hheader
  obtain ⟨_, _, primary, _, _, hprimary, himages⟩ := hplanned.images
  obtain ⟨bank2, b₁, hbank2, hle, hbanks⟩ := hplanned.banks hprimary
  obtain ⟨ms, hd, hms⟩ := a.run_planned_tends hflow hx
  obtain ⟨⟨s, _, rfl⟩, honly⟩ := himages p hp
  have hregion : (Placement.ofSecondary s a.config.secondaryAddress).regionStart? =
      some a.config.secondaryAddress := Placement.regionStart?_eq_some.2 rfl
  generalize Placement.ofSecondary s a.config.secondaryAddress = p at hp honly hregion ⊢
  have hcalls : ∀ e ∈ ms, e.OfStore a.config r.board.store.home? ∨ e.For a.aperture primary ∨
      e.For a.aperture p := by
    intro e he
    refine (hms e he).imp id fun hfor => ?_
    obtain ⟨p', hp', hfor⟩ := hfor
    obtain rfl | rfl := honly p' hp'
    · exact .inl hfor
    · exact .inr hfor
  have hapart : ¬a.Occupies b a.config.secondaryAddress.toNat →
      ¬primary.InSectors a.config.secondaryAddress.toNat →
      ((∀ n, p.InSectors n → ¬a.Occupies b n ∧ ¬primary.InSectors n) ↔
        ∀ bank ∈ [a.config.bank1Address, bank2], ¬(a.config.secondaryAddress.toNat < bank.toNat ∧
          bank.toNat < a.config.secondaryAddress.toNat + sectorsOf p.span)) := by
    intro hrunning htarget
    simp only [List.mem_cons, List.not_mem_nil, or_false, forall_eq_or_imp, forall_eq]
    obtain ⟨hocc, hprim⟩ | ⟨hocc, hprim⟩ := hbanks
    · exact Placement.avoids_both_iff hregion hocc hprim hrunning htarget
    · rw [Placement.avoids_both_iff hregion hocc hprim hrunning htarget, and_comm]
  refine ⟨b, bank2, b₁, primary, ms, hb, hplanned, hbank2, hprimary, hregion, hd, hcalls,
    fun e he i hi => he.inSectors hregion hi, hapart, fun hbelow => ?_⟩
  rw [UInt32.lt_iff_toNat_lt] at hbelow
  have houtside : ¬a.Occupies b a.config.secondaryAddress.toNat ∧
      ¬primary.InSectors a.config.secondaryAddress.toNat := by
    obtain ⟨hocc, hprim⟩ | ⟨hocc, hprim⟩ := hbanks
    · exact ⟨hocc.not_below hbelow, hprim.not_below (Nat.lt_of_lt_of_le hbelow hle)⟩
    · exact ⟨hocc.not_below (Nat.lt_of_lt_of_le hbelow hle), hprim.not_below hbelow⟩
  rw [hapart houtside.1 houtside.2]
  simp only [List.mem_cons, List.not_mem_nil, or_false, forall_eq_or_imp, forall_eq]
  omega

end Attempt

/-! A device with the default addresses. Its bank 1 runs, and ends at `0x0800C040`. -/
namespace Sample

def standard : Attempt where
  aperture := { base := 0x08000000 }
  config := {}
  running := .bank1

def standardBoard : Board where
  chip := ({ size := 0x81000 : Chip }.preset 0xB008 (Word.toBytes 0x1000)).preset 0xC028
    (Word.toBytes 0)
  store := .memory { bank2Address := 0x08080000 }

def smallest : ImageHeader := ⟨.ota2, 24, 0, 8, 0x8000, 0x08080000⟩

def fileOf (len : Word) : ImageHeader := ⟨.rdp, 24, 0, len, 56, 0⟩

/-- A connection that breaks off after the header block of a container, which has a secondary image
of this length. -/
def brokenOff (len : Word) : Rig Scripted where
  link := { data := FileHeader.bytes ⟨1, 2⟩ ++ smallest.bytes ++ (fileOf len).bytes }
  board := standardBoard
  buffer := List.replicate 64 0

def planOf (len : Word) : Plan where
  placements := [.ofSecondary (fileOf len) 0x08004000,
    ⟨.primary, .ota2, 0x08080008, 0, 0x8000, 8, 0⟩]
  streamStart := 56
  targetBank := .bank2

def headerOf (len : Word) : TargetHeader := ⟨⟨1, 2⟩, 24, smallest, some (fileOf len)⟩

end Sample

/-- Seven sectors below bank 1 are left to the secondary image. -/
theorem Attempt.secondary_apart_iff_sample : ∃ plan header p r₁ b primary ms,
    Sample.standard.config.flow = .container ∧
    Sample.standard.plan .container (Sample.brokenOff 0x7000) = .ok (plan, some header) r₁ ∧
    plan.secondary? = some p ∧ Does [] (Sample.brokenOff 0x7000).board b ∧
    Sample.standard.PlannedOn b (plan, header) ∧ plan.primary? = some primary ∧
    Does ms (Sample.brokenOff 0x7000).board
      (Sample.standard.run (Sample.brokenOff 0x7000)).2.board ∧
    (∀ e ∈ ms, e.OfStore Sample.standard.config (Sample.brokenOff 0x7000).board.store.home? ∨
      e.For Sample.standard.aperture primary ∨ e.For Sample.standard.aperture p) ∧
    ∀ n, p.InSectors n → ¬Sample.standard.Occupies b n ∧ ¬primary.InSectors n := by
  have hplan : answer? (Sample.standard.plan .container) (Sample.brokenOff 0x7000) =
      some (Sample.planOf 0x7000, some (Sample.headerOf 0x7000)) := by decide +kernel
  obtain ⟨r₁, hx⟩ := answer?_eq_some.1 hplan
  obtain ⟨b, _, _, primary, ms, hb, hplanned, _, hprimary, _, hd, hms, _, _, hbelow⟩ :=
    Sample.standard.secondary_apart_iff rfl hx rfl
  exact ⟨_, _, _, r₁, b, primary, ms, rfl, hx, rfl, hb, hplanned, hprimary, hd, hms,
    (hbelow (by decide)).2 (by decide)⟩

/-- With one more byte the secondary image takes the first sector of the bank that runs, and the
erasures destroy the header that is there. -/
theorem Attempt.secondary_over_running :
    Sample.standard.config = {} ∧ Sample.standard.running = .bank1 ∧
    ∃ plan header p r₁,
      Sample.standard.plan .container (Sample.brokenOff 0x7001) = .ok (plan, some header) r₁ ∧
      plan.secondary? = some p ∧
      Sample.standard.Occupies (Sample.brokenOff 0x7001).board 0x0800B009 ∧
      p.InSectors 0x0800B009 ∧
      (Sample.brokenOff 0x7001).board.chip.byte 0xB009 = 0x10 ∧
      (Sample.standard.run (Sample.brokenOff 0x7001)).2.board.chip.byte 0xB009 = erasedByte := by
  have hplan : answer? (Sample.standard.plan .container) (Sample.brokenOff 0x7001) =
      some (Sample.planOf 0x7001, some (Sample.headerOf 0x7001)) := by decide +kernel
  have hextent : answer? Sample.standard.extent (Sample.brokenOff 0x7001).board =
      some (0x0800B000, some 0x0800C040) := by decide +kernel
  obtain ⟨r₁, hx⟩ := answer?_eq_some.1 hplan
  obtain ⟨b', hb⟩ := answer?_eq_some.1 hextent
  refine ⟨rfl, rfl, _, _, _, r₁, hx, rfl, ?_, ?_, by decide +kernel, by decide +kernel⟩
  · refine (occupies_iff hb _).2 ⟨by decide, fun w hw => ?_⟩
    cases hw
    decide
  · decide +kernel

end DualBank
