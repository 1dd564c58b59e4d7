import DualBank.Proofs.Completeness
import DualBank.Proofs.HeaderBlock

/-! Which images can be planned together. They are arranged in the order of the stream, and there is
a plan for them exactly if each starts where the one before it has ended, or later, and no position
in the stream and no address is too large for a word. The plan takes each of them where it belongs,
in that order. -/
namespace DualBank

namespace TargetHeader

variable {t : TargetHeader} {address : Word}

def prologue (t : TargetHeader) : Prologue := ⟨t.file, t.recordLen⟩

/-- The images, each with its role. -/
def images (t : TargetHeader) : List (Role × ImageHeader) :=
  (.primary, t.primary) :: (t.secondary.map (Prod.mk .secondary)).toList

/-- Which of two images comes first in the stream. Of two at one offset the secondary does. -/
def precedes (x y : Role × ImageHeader) : Bool :=
  x.2.offset < y.2.offset || x.2.offset = y.2.offset && x.1 = .secondary

def arranged (t : TargetHeader) : List (Role × ImageHeader) := t.images.mergeSort precedes

/-- From `q` on, each image starts behind those before it, and ends at a word. -/
def Laid : (q : Nat) → List (Role × ImageHeader) → Prop
  | _, [] => True
  | q, x :: xs => q ≤ x.2.offset.toNat ∧ x.2.stop < UInt32.size ∧ Laid x.2.stop xs

/-- There is room for the images in the stream, and for the signature in the bank. -/
structure Layable (t : TargetHeader) (address : Word) : Prop where
  sized : t.prologue.Sized
  extent_lt : t.prologue.extent < UInt32.size
  signed : Signature.length ≤ t.primary.imageLen.toNat
  address_lt : address.toNat + Signature.length < UInt32.size
  laid : Laid t.prologue.extent t.arranged

theorem arranged_of_none (h : t.secondary = none) : t.arranged = [(.primary, t.primary)] := by
  simp [arranged, images, h]

theorem arranged_of_some {s : ImageHeader} (h : t.secondary = some s) : t.arranged =
    if s.offset ≤ t.primary.offset then [(.secondary, s), (.primary, t.primary)]
    else [(.primary, t.primary), (.secondary, s)] := by
  have hfirst : precedes (.primary, t.primary) (.secondary, s) = true ↔
      ¬s.offset ≤ t.primary.offset := by
    simp [precedes]
  simp only [arranged, images, h, Option.map_some, Option.toList_some]
  by_cases hle : s.offset ≤ t.primary.offset
  · have hno := mt hfirst.1 (not_not.2 hle)
    simp [List.mergeSort, hle, hno]
  · simp [List.mergeSort, hle, hfirst.2 hle]

end TargetHeader

namespace Placement

/-- The placement takes the image from its place in the stream to its place in flash. -/
structure Carries (address secondaryAddress : Word) (x : Role × ImageHeader) (p : Placement) :
    Prop where
  role : p.role = x.1
  streamOffset : p.streamOffset = x.2.offset
  regionLen : p.regionLen? = some x.2.imageLen
  expectedChecksum : p.expectedChecksum = x.2.checksum
  flash : match x.1 with
    | .primary => p.signatureLen.toNat = Signature.length ∧
        p.destination.toNat = address.toNat + Signature.length
    | .secondary => p.signatureLen = 0 ∧ p.destination = secondaryAddress

variable {address secondaryAddress : Word} {x : Role × ImageHeader} {p : Placement}

theorem carries_primary {h : ImageHeader} (hp : ofPrimary h address = .ok p) :
    p.Carries address secondaryAddress (.primary, h) := by
  obtain ⟨hrole, hsig, hoffset, hchecksum, hspan, hregion⟩ := ofPrimary_eq_ok hp
  have hdest := regionStart?_eq_some.1 hregion
  rw [hsig] at hdest
  exact ⟨hrole, hoffset, regionLen?_eq_some.2 hspan.symm, hchecksum,
    congrArg UInt32.toNat hsig, hdest.symm⟩

theorem carries_secondary (h : ImageHeader) :
    (ofSecondary h secondaryAddress).Carries address secondaryAddress (.secondary, h) :=
  ⟨rfl, rfl, regionLen?_eq_some.2 rfl, rfl, rfl, rfl⟩

theorem Carries.streamStop (h : p.Carries address secondaryAddress x) :
    p.streamStop = x.2.stop := by
  rw [Placement.streamStop, ImageHeader.stop, h.streamOffset, ← regionLen?_eq_some.1 h.regionLen]

theorem Carries.signatureLen_le (h : p.Carries address secondaryAddress x) :
    p.signatureLen.toNat ≤ Signature.length := by
  have hflash := h.flash
  cases hrole : x.1 with
  | primary => rw [hrole] at hflash; exact Nat.le_of_eq hflash.1
  | secondary => rw [hrole] at hflash; rw [hflash.1]; exact Nat.zero_le _

/-- The image fits if the stream position behind it is a word. -/
theorem Carries.fits_iff (h : p.Carries address secondaryAddress x) :
    p.Fits ↔ x.2.stop < UInt32.size := by
  refine ⟨fun hfits => h.streamStop ▸ hfits.streamStop_lt, fun hstop => ?_⟩
  refine ⟨h.signatureLen_le, ?_, h.streamStop ▸ hstop⟩
  have hflash := h.flash
  cases hrole : x.1 with
  | primary =>
    rw [hrole] at hflash
    rw [hflash.1, hflash.2]
    exact Nat.le_add_left _ _
  | secondary =>
    rw [hrole] at hflash
    rw [hflash.1]
    exact Nat.zero_le _

end Placement

namespace Plan

open TargetHeader (Laid)

variable {t : TargetHeader} {bank : Bank} {address secondaryAddress : Word} {plan : Plan}

/-- The placements are in order exactly if the images that they carry are laid. -/
theorem laid_iff {xs : List (Role × ImageHeader)} {ps : List Placement}
    (h : List.Forall₂ (Placement.Carries address secondaryAddress) xs ps) (q : Nat) :
    Laid q xs ↔ (∀ p ∈ ps, p.Fits) ∧ Ordered q ps := by
  induction h generalizing q with
  | nil => simp [Laid, Ordered]
  | cons hx _ ih =>
    rw [Laid, ih, Ordered, List.forall_mem_cons, hx.fits_iff, hx.streamStop, hx.streamOffset]
    constructor
    · intro hlaid
      obtain ⟨hq, hstop, hfits, hordered⟩ := hlaid
      exact ⟨⟨hstop, hfits⟩, hq, hordered⟩
    · intro hall
      obtain ⟨⟨hstop, hfits⟩, hq, hordered⟩ := hall
      exact ⟨hq, hstop, hfits, hordered⟩

/-- A plan is the check of a carrier for each image, in their order. -/
theorem ofTarget_arranged {primary : Placement} (hs : t.prologue.Sized)
    (hlt : t.prologue.extent < UInt32.size)
    (hp : Placement.ofPrimary t.primary address = .ok primary) :
    ∃ ps, List.Forall₂ (Placement.Carries address secondaryAddress) t.arranged ps ∧
      ofTarget t bank address secondaryAddress =
        validated ⟨ps, .ofNat t.prologue.extent, bank⟩ := by
  have hblock : t.blockLen = .ok t.prologue.extent := Prologue.blockLen_of_sized hs
  have hword : Word.ofNat? t.prologue.extent = some (.ofNat t.prologue.extent) := if_pos hlt
  have hprimary : primary.Carries address secondaryAddress (.primary, t.primary) :=
    Placement.carries_primary hp
  have hoffset := hprimary.streamOffset
  unfold ofTarget
  simp only [hblock, Except.mapError, hword, hp, bind, Except.bind]
  cases hsec : t.secondary with
  | none =>
    rw [TargetHeader.arranged_of_none hsec]
    exact ⟨[primary], .cons hprimary .nil, rfl⟩
  | some s =>
    have hsecondary : (Placement.ofSecondary s secondaryAddress).Carries address secondaryAddress
      (.secondary, s) := Placement.carries_secondary s
    rw [TargetHeader.arranged_of_some hsec]
    by_cases hle : s.offset ≤ t.primary.offset
    · rw [if_pos hle]
      refine ⟨_, .cons hsecondary (.cons hprimary .nil), ?_⟩
      dsimp only
      rw [if_pos (by rwa [hoffset, hsecondary.streamOffset])]
    · rw [if_neg hle]
      refine ⟨_, .cons hprimary (.cons hsecondary .nil), ?_⟩
      dsimp only
      rw [if_neg (by rwa [hoffset, hsecondary.streamOffset])]

theorem validated_eq_ok_iff {plan' : Plan} : plan.validated = .ok plan' ↔
    checkOrder plan.streamStart plan.placements = .ok () ∧ plan = plan' := by
  rw [validated]
  cases checkOrder plan.streamStart plan.placements <;> simp [bind, Except.bind, pure, Except.pure]

theorem checkOrder_iff {xs : List (Role × ImageHeader)} {ps : List Placement} {q : Word}
    (h : List.Forall₂ (Placement.Carries address secondaryAddress) xs ps) :
    checkOrder q ps = .ok () ↔ Laid q.toNat xs := by
  rw [laid_iff h]
  constructor
  · intro ho
    refine checkOrder_eq_ok ho fun p hp => ?_
    obtain ⟨i, hi, rfl⟩ := List.mem_iff_getElem.1 hp
    exact (h.get (h.length_eq ▸ hi) hi).signatureLen_le
  · intro hlaid
    exact checkOrder_ok hlaid.1 hlaid.2

/-- A plan that was made is the one for the images. -/
theorem arranged_of_ofTarget (h : ofTarget t bank address secondaryAddress = .ok plan) :
    t.Layable address ∧
      List.Forall₂ (Placement.Carries address secondaryAddress) t.arranged plan.placements ∧
      plan.streamStart.toNat = t.prologue.extent := by
  obtain ⟨_, _, hblock, primary, hp, _⟩ := ofTarget_eq_ok h
  have hs : t.prologue.Sized := by
    by_contra hs
    rw [show t.blockLen = .error .malformedHeader from Prologue.blockLen_of_not_sized hs] at hblock
    cases hblock
  have hextent : t.prologue.extent = plan.streamStart.toNat :=
    Except.ok.inj ((Prologue.blockLen_of_sized hs).symm.trans hblock)
  have hlt : t.prologue.extent < UInt32.size := hextent ▸ plan.streamStart.toNat_lt_size
  obtain ⟨_, hsig, _, _, hspan, hregion⟩ := Placement.ofPrimary_eq_ok hp
  have hdest := Placement.regionStart?_eq_some.1 hregion
  rw [Placement.span] at hspan
  rw [hsig] at hspan hdest
  obtain ⟨ps, hps, heq⟩ := ofTarget_arranged hs hlt hp
  obtain ⟨ho, rfl⟩ := validated_eq_ok_iff.1 (heq.symm.trans h)
  have hlaid := (checkOrder_iff hps).1 ho
  rw [← hextent] at hlaid
  refine ⟨⟨hs, hlt, ?_, ?_, hlaid⟩, hps, hextent.symm⟩
  · rw [← hspan]
    exact Nat.le_add_left _ _
  · exact Nat.lt_of_le_of_lt (Nat.le_of_eq hdest) primary.destination.toNat_lt_size

theorem ofTarget_of_layable (h : t.Layable address) :
    ∃ plan, ofTarget t bank address secondaryAddress = .ok plan := by
  obtain ⟨primary, hp⟩ := Placement.ofPrimary_ok h.signed h.address_lt
  obtain ⟨ps, hps, heq⟩ := ofTarget_arranged h.sized h.extent_lt hp
  refine ⟨_, heq.trans (validated_eq_ok_iff.2 ⟨(checkOrder_iff hps).2 ?_, rfl⟩)⟩
  rw [UInt32.toNat_ofNat_of_lt' h.extent_lt]
  exact h.laid

/-- One of the images is primary, and at most one is secondary. -/
theorem count_arranged (t : TargetHeader) : (t.arranged.map Prod.fst).count .primary = 1 ∧
    (t.arranged.map Prod.fst).count .secondary ≤ 1 := by
  have hperm : (t.arranged.map Prod.fst).Perm (t.images.map Prod.fst) :=
    (List.mergeSort_perm _ _).map _
  rw [hperm.count_eq, hperm.count_eq]
  cases hs : t.secondary <;> simp [TargetHeader.images, hs]

theorem map_role_eq {xs : List (Role × ImageHeader)} {ps : List Placement}
    (h : List.Forall₂ (Placement.Carries address secondaryAddress) xs ps) :
    ps.map (·.role) = xs.map Prod.fst := by
  induction h with
  | nil => rfl
  | cons hx _ ih => rw [List.map_cons, List.map_cons, hx.role, ih]

/-- There is a plan exactly if the images are laid. It carries each of them, in the order of the
stream. -/
theorem ofTarget_exact (t : TargetHeader) (bank : Bank) (address secondaryAddress : Word) :
    ((∃ plan, ofTarget t bank address secondaryAddress = .ok plan) ↔ t.Layable address) ∧
    ∀ plan, ofTarget t bank address secondaryAddress = .ok plan →
      (plan.placements.map (·.role)).count .primary = 1 ∧
      (plan.placements.map (·.role)).count .secondary ≤ 1 ∧
      plan.bankAddress? = some address ∧ plan.targetBank = bank ∧
      plan.streamStart.toNat = t.prologue.extent ∧
      List.Forall₂ (fun x p => p.Carries address secondaryAddress x ∧
        p.streamEnd?.map UInt32.toNat = some x.2.stop) t.arranged plan.placements := by
  refine ⟨⟨fun h => ?_, ofTarget_of_layable⟩, fun plan h => ?_⟩
  · obtain ⟨plan, h⟩ := h
    exact (arranged_of_ofTarget h).1
  · obtain ⟨hwf, hbank, _, primary, hp, hfind, _⟩ := ofTarget_eq_ok h
    obtain ⟨_, _, _, _, _, hregion⟩ := Placement.ofPrimary_eq_ok hp
    obtain ⟨_, hcarries, hstart⟩ := arranged_of_ofTarget h
    have haddress : plan.bankAddress? = some address := by
      rw [bankAddress?, hfind]
      exact hregion
    obtain ⟨hprimary, hsecondary⟩ := count_arranged t
    rw [map_role_eq hcarries]
    refine ⟨hprimary, hsecondary, haddress, hbank, hstart, List.forall₂_iff_get.2
      ⟨hcarries.length_eq, fun i hi hi' => ?_⟩⟩
    have hx := hcarries.get hi hi'
    have hstop := hx.fits_iff.1 (hwf.fits _ (List.get_mem _ _))
    have hvalue := UInt32.toNat_ofNat_of_lt' hstop
    refine ⟨hx, ?_⟩
    rw [Placement.streamEnd?_eq_some.2 (hvalue.trans hx.streamStop.symm), Option.map_some, hvalue]

end Plan

/-- Two images at one offset, the first of which is empty, and the other ends at the last word. So
does the signature of the bank. -/
def Sample.edge : TargetHeader where
  file := ⟨1, 2⟩
  recordLen := 24
  primary := ⟨.ota1, 24, 0, 8, 0xFFFFFFF7, 0⟩
  secondary := some ⟨.rdp, 24, 0, 0, 0xFFFFFFF7, 0⟩

theorem Plan.ofTarget_exact_sample : Sample.edge.Layable 0xFFFFFFF7 ∧
    ∃ plan, ofTarget Sample.edge .bank1 0xFFFFFFF7 0x2000 = .ok plan ∧
      (plan.placements.map (·.role)).count .primary = 1 ∧
      plan.bankAddress? = some 0xFFFFFFF7 ∧ plan.streamStart.toNat = 56 := by
  have harranged := TargetHeader.arranged_of_some (t := Sample.edge) rfl
  have hlayable : Sample.edge.Layable 0xFFFFFFF7 := by
    refine ⟨by decide, by decide, by decide, by decide, ?_⟩
    rw [harranged]
    exact ⟨by decide, by decide, by decide, by decide, trivial⟩
  obtain ⟨hiff, hplan⟩ := ofTarget_exact Sample.edge .bank1 0xFFFFFFF7 0x2000
  obtain ⟨plan, h⟩ := hiff.2 hlayable
  obtain ⟨hcount, _, haddress, _, hstart, _⟩ := hplan plan h
  exact ⟨hlayable, plan, h, hcount, haddress, hstart⟩

end DualBank
