import Mathlib.Data.List.Find
import DualBank.Proofs.Packing

/-! Reading undoes packing. Whoever reads a container that was built finds, for any tag, the record
of the last image that was pushed with it, and each payload where its record says. -/
namespace DualBank.Builder

variable {b : Builder} {hs : List ImageHeader} {start total : Nat} {out out' : Bytes}

/-- The record of the last image of a kind, where the records are those of the images. -/
def lastRecord (b : Builder) (hs : List ImageHeader) (kind : ImageSpec → Bool) :
    Option ImageHeader :=
  ((b.images.zip hs).findRev? fun p => kind p.1).map Prod.snd

/-- An image is of some kind if its record is. -/
theorem Placed.findRev?_eq (h : b.Placed start hs) {kind : ImageSpec → Bool}
    {kind' : ImageHeader → Bool}
    (hkind : ∀ image header, ImageHeader.Describes b.recordLen image header →
      kind' header = kind image) : hs.findRev? kind' = b.lastRecord hs kind := by
  have hrecords : (b.images.zip hs).map Prod.snd = hs :=
    List.map_snd_zip (Nat.le_of_eq h.describes.length_eq.symm)
  obtain ⟨_, hdescribes⟩ := List.forall₂_iff_zip.1 h.describes
  calc hs.findRev? kind'
      = ((b.images.zip hs).map Prod.snd).reverse.find? kind' := by
        rw [hrecords, List.findRev?_eq_find?_reverse]
    _ = ((b.images.zip hs).reverse.find? (kind' ∘ Prod.snd)).map Prod.snd := by
        rw [← List.map_reverse, List.find?_map]
    _ = ((b.images.zip hs).reverse.find? fun p => kind p.1).map Prod.snd := by
        rw [List.find?_congr fun p hp => hkind p.1 p.2 (hdescribes (List.mem_reverse.1 hp))]
    _ = b.lastRecord hs kind := by
        rw [lastRecord, List.findRev?_eq_find?_reverse]

/-- There is such a record exactly if there is such an image. -/
theorem Placed.lastRecord_eq_none (h : b.Placed start hs) (kind : ImageSpec → Bool) :
    b.lastRecord hs kind = none ↔ ∀ image ∈ b.images, kind image = false := by
  have himages : (b.images.zip hs).map Prod.fst = b.images :=
    List.map_fst_zip (Nat.le_of_eq h.describes.length_eq)
  rw [lastRecord, Option.map_eq_none_iff, List.findRev?_eq_find?_reverse, List.find?_eq_none]
  simp only [List.mem_reverse, Bool.not_eq_true]
  constructor
  · intro hnone image himage
    rw [← himages] at himage
    obtain ⟨p, hp, rfl⟩ := List.mem_map.1 himage
    exact hnone p hp
  · intro hnone p hp
    exact hnone p.1 (List.of_mem_zip hp).1

/-- Whoever reads a packed container finds the last record that has the tag, and beside it the last
of the secondary ones that has another. -/
theorem Fits.parse_lastRecord (h : b.Fits start hs total) (wanted : Tag) :
    TargetHeader.parse (b.packed hs total) wanted =
      match b.lastRecord hs fun image => image.tag = wanted with
      | none => .error .noMatchingImage
      | some primary => .ok {
          file := ⟨b.version, .ofNat b.images.length⟩
          recordLen := b.recordLen
          primary
          secondary := b.lastRecord hs fun image =>
            image.tag ≠ wanted && image.tag.isSecondary } := by
  have hprimary : hs.findRev? (fun h => h.tag = wanted) =
      b.lastRecord hs fun image => image.tag = wanted :=
    h.findRev?_eq fun image header hd => by rw [hd.tag]
  have hsecondary : hs.findRev? (fun h => h.tag ≠ wanted && h.tag.isSecondary) =
      b.lastRecord hs fun image => image.tag ≠ wanted && image.tag.isSecondary :=
    h.findRev?_eq fun image header hd => by rw [hd.tag]
  rw [h.parse_packed, hprimary, hsecondary]
  rfl

/-- Each payload can be cut out at its record's offset, and has its record's checksum. -/
theorem Fits.payloads_overlay (h : b.Fits start hs total) (hlen : total ≤ out.length) :
    List.Forall₂ (fun image header =>
      (out.overlay 0 (b.packed hs total)).slice? header.offset.toNat
        (header.offset.toNat + header.imageLen.toNat) = some image.payload ∧
      Checksum.of image.payload = header.checksum) b.images hs := by
  have hpacked := h.length_packed
  have hsame : (out.overlay 0 (b.packed hs total)).length = out.length :=
    Bytes.length_overlay (by rwa [hpacked, Nat.zero_add])
  have hfront := Bytes.take_overlay_zero out (b.packed hs total)
  rw [hpacked] at hfront
  refine h.locates.imp fun image header ⟨hmem, hlocates⟩ => ⟨?_, hlocates.checksum.symm⟩
  have hstop : header.offset.toNat + header.imageLen.toNat ≤ total := h.stop_le header hmem
  refine Bytes.slice?_eq_some.2 ⟨Nat.le_add_right _ _, by omega, ?_⟩
  -- The payload lies in the part of the buffer that was written.
  calc image.payload
      = ((b.packed hs total).drop header.offset.toNat).take header.imageLen.toNat :=
        hlocates.payload.symm
    _ = (((out.overlay 0 (b.packed hs total)).drop header.offset.toNat).take
          (total - header.offset.toNat)).take header.imageLen.toNat := by
        rw [← List.drop_take, hfront]
    _ = ((out.overlay 0 (b.packed hs total)).drop header.offset.toNat).take
          (header.offset.toNat + header.imageLen.toNat - header.offset.toNat) := by
        rw [List.take_take, Nat.min_eq_left (by omega), Nat.add_sub_cancel_left]

/-- Reading undoes packing. A container that was built has an image for a tag exactly if one was
pushed with it. What is read then is the prologue of the builder, the record of the last image with
the tag, and that of the last secondary image with another; and the payload of each image is where
its record says. -/
theorem parse_build (h : b.build out = .ok total out') : ∃ hs, b.headers = .ok hs ∧
    (∀ wanted,
      (TargetHeader.parse (out'.take total) wanted = .error .noMatchingImage ↔
        ∀ image ∈ b.images, image.tag ≠ wanted) ∧
      ((∃ image ∈ b.images, image.tag = wanted) → ∃ primary,
        b.lastRecord hs (fun image => image.tag = wanted) = some primary ∧
        TargetHeader.parse (out'.take total) wanted = .ok {
          file := ⟨b.version, .ofNat b.images.length⟩
          recordLen := b.recordLen
          primary
          secondary := b.lastRecord hs fun image =>
            image.tag ≠ wanted && image.tag.isSecondary })) ∧
    List.Forall₂ (fun image header =>
      out'.slice? header.offset.toNat (header.offset.toNat + header.imageLen.toNat) =
        some image.payload ∧
      Checksum.of image.payload = header.checksum) b.images hs := by
  obtain ⟨start, hs, hheaders, hfits, hlen, rfl⟩ := build_packs h
  have hfront := Bytes.take_overlay_zero out (b.packed hs total)
  rw [hfits.length_packed] at hfront
  refine ⟨hs, hheaders, fun wanted => ?_, hfits.payloads_overlay hlen⟩
  have hnone := hfits.lastRecord_eq_none fun image => image.tag = wanted
  simp only [decide_eq_false_iff_not] at hnone
  rw [hfront, hfits.parse_lastRecord]
  cases hfound : b.lastRecord hs fun image => image.tag = wanted with
  | none =>
    have hno := hnone.1 hfound
    refine ⟨iff_of_true rfl hno, fun ⟨image, himage, htag⟩ => ?_⟩
    exact absurd htag (hno image himage)
  | some primary =>
    refine ⟨iff_of_false (by simp) fun hno => ?_, fun _ => ⟨primary, rfl, rfl⟩⟩
    rw [hnone.2 hno] at hfound
    cases hfound

/-- Two images share a tag, two are secondary, one of them has a position of its own, and one is
empty. -/
def mixed : Builder where
  version := 3
  images := [⟨.ota1, 0, [1, 2, 3], none⟩, ⟨.rdp, 0x2000, [4, 5], some 110⟩,
    ⟨.ota1, 0x800, [6], none⟩, ⟨.rdp, 0x3000, [], none⟩]

/-- The later image of the first bank is found, and no image of the second. -/
theorem parse_build_mixed : ∃ out' hs,
    mixed.build (List.replicate 120 erasedByte) = .ok 113 out' ∧ mixed.headers = .ok hs ∧
    TargetHeader.parse (out'.take 113) .ota2 = .error .noMatchingImage ∧
    ∃ primary, mixed.lastRecord hs (fun image => image.tag = .ota1) = some primary ∧
      primary.flashAddress = 0x800 ∧
      TargetHeader.parse (out'.take 113) .ota1 = .ok {
        file := ⟨3, 4⟩
        recordLen := 24
        primary
        secondary := mixed.lastRecord hs fun image =>
          image.tag ≠ .ota1 && image.tag.isSecondary } := by
  have hbuild : answer? mixed.build (List.replicate 120 erasedByte) = some 113 := by
    decide +kernel
  obtain ⟨out', hbuild⟩ := answer?_eq_some.1 hbuild
  obtain ⟨hs, hheaders, hparse, _⟩ := parse_build hbuild
  obtain ⟨primary, hprimary, hfound⟩ := (hparse .ota1).2 ⟨_, .head _, rfl⟩
  refine ⟨out', hs, hbuild, hheaders, (hparse .ota2).1.2 (by decide), primary, hprimary, ?_,
    hfound⟩
  cases hheaders
  cases hprimary
  rfl

end DualBank.Builder
