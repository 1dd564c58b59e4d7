import DualBank.Proofs.HeaderBlock

/-! Which images can be packed, and all that packing writes. Each image takes up a range of the
stream. The builder accepts them exactly if every range lies between the header block and the last
position that a word holds, and no two of them overlap. A container that was packed has its records
and payloads in it and zeros everywhere else. A builder that fails has written nothing. -/
namespace DualBank

namespace Builder

/-- Where the header block and all of these ranges have ended. -/
def frontier (extent : Nat) (ranges : List (Nat × Nat)) : Nat :=
  (ranges.map Prod.snd).foldl max extent

/-- The ranges that are taken, and then those of the images. An image without an offset of its own
starts where the header block and all images before it have ended. -/
def rangesFrom (extent : Nat) : (taken : List (Nat × Nat)) → List ImageSpec → List (Nat × Nat)
  | taken, [] => taken
  | taken, image :: images =>
    let start := (image.offset.map UInt32.toNat).getD (frontier extent taken)
    rangesFrom extent (taken ++ [(start, start + image.payload.length)]) images

/-- Length of the header block. -/
def extent (b : Builder) : Nat := b.images.length * b.recordLen.toNat + FileHeader.length

/-- The stream ranges of the images. -/
def ranges (b : Builder) : List (Nat × Nat) := rangesFrom b.extent [] b.images

/-- Length of the container. -/
def length (b : Builder) : Nat := frontier b.extent b.ranges

/-- There are images, there is room for their records, and their ranges are behind the header block,
not too far out, and apart. -/
structure Layable (b : Builder) : Prop where
  images : b.images ≠ []
  recordLen : ImageHeader.length ≤ b.recordLen.toNat
  extent_lt : b.extent < UInt32.size
  within : ∀ r ∈ b.ranges, b.extent ≤ r.1 ∧ r.2 < UInt32.size
  apart : b.ranges.Pairwise fun r r' => ¬(r'.1 < r.2 ∧ r.1 < r'.2)

end Builder

namespace ImageHeader

/-- The stream range of the payload. -/
def range (h : ImageHeader) : Nat × Nat := (h.offset.toNat, h.stop)

theorem apart_iff {h h' : ImageHeader} :
    h.Apart h' ↔ ¬(h'.range.1 < h.range.2 ∧ h.range.1 < h'.range.2) := by
  simp only [Apart, range, not_and_or, Nat.not_lt]

end ImageHeader

namespace Builder

variable {b : Builder} {hs placed : List ImageHeader} {images : List ImageSpec} {image : ImageSpec}
  {recordLen : Word} {start next total : Nat} {out out' : Bytes}

theorem frontier_append (start : Nat) (ranges : List (Nat × Nat)) (r : Nat × Nat) :
    frontier start (ranges ++ [r]) = max (frontier start ranges) r.2 := by
  simp [frontier]

/-- What is taken stays so. -/
theorem taken_sublist (start : Nat) (taken : List (Nat × Nat)) (images : List ImageSpec) :
    taken.Sublist (rangesFrom start taken images) := by
  induction images generalizing taken with
  | nil => exact List.Sublist.refl _
  | cons image images ih => exact (List.sublist_append_left _ _).trans (ih _)

theorem mem_rangesFrom (start : Nat) (taken : List (Nat × Nat)) (image : ImageSpec)
    (images : List ImageSpec) : ∃ r ∈ rangesFrom start taken (image :: images),
      r.1 = (image.offset.map UInt32.toNat).getD (frontier start taken) ∧
      r.2 = r.1 + image.payload.length :=
  ⟨_, (taken_sublist start _ images).subset (List.mem_append_right _ (List.mem_singleton_self _)),
    rfl, rfl⟩

theorem exists_describes (recordLen : Word) (image : ImageSpec) (offset : Word)
    (hlen : image.payload.length < UInt32.size) :
    ∃ header, ImageHeader.Describes recordLen image header ∧ header.offset = offset :=
  ⟨⟨image.tag, recordLen, Checksum.of image.payload, .ofNat image.payload.length, offset,
    image.flashAddress⟩, ⟨rfl, rfl, rfl, UInt32.toNat_ofNat_of_lt' hlen, rfl⟩, rfl⟩

/-- The range of the next image, if its record is placed at the frontier or at its own offset. -/
theorem range_eq {header : ImageHeader} (hd : ImageHeader.Describes recordLen image header)
    (hoffset : header.offset = image.offset.getD (.ofNat next)) (hnext : next < UInt32.size) :
    header.range = ((image.offset.map UInt32.toNat).getD next,
      (image.offset.map UInt32.toNat).getD next + image.payload.length) := by
  have hstart : header.offset.toNat = (image.offset.map UInt32.toNat).getD next := by
    rw [hoffset]
    cases image.offset with
    | none => exact UInt32.toNat_ofNat_of_lt' hnext
    | some offset => rfl
  rw [ImageHeader.range, ImageHeader.stop, hstart, hd.imageLen]

theorem rangesFrom_cons {header : ImageHeader}
    (hd : ImageHeader.Describes recordLen image header)
    (hoffset : header.offset = image.offset.getD (.ofNat next)) (hnext : next < UInt32.size)
    (hfront : next = frontier start (placed.map ImageHeader.range)) :
    rangesFrom start (placed.map ImageHeader.range) (image :: images) =
      rangesFrom start ((placed ++ [header]).map ImageHeader.range) images := by
  rw [rangesFrom, ← hfront, List.map_append, List.map_singleton, range_eq hd hoffset hnext]

/-- Placed records are those of the ranges. -/
theorem place_ranges (h : place recordLen start images next placed = .ok hs)
    (hnext : next < UInt32.size) (hfront : next = frontier start (placed.map ImageHeader.range)) :
    hs.map ImageHeader.range = rangesFrom start (placed.map ImageHeader.range) images := by
  -- That `next` is the frontier of what was placed carries over from image to image.
  induction images generalizing next placed with
  | nil =>
    cases h
    rfl
  | cons image images ih =>
    obtain ⟨header, hd, hoffset, _, hstop, _, h⟩ := place_cons_eq_ok h
    rw [rangesFrom_cons hd hoffset hnext hfront]
    refine ih h (Nat.max_lt.2 ⟨hnext, hstop⟩) ?_
    rw [List.map_append, List.map_singleton, frontier_append, ← hfront]
    rfl

theorem overlap_of_apart {h h' : ImageHeader} (hapart : h.Apart h') :
    overlap h.offset.toNat (h.offset.toNat + h.imageLen.toNat) h'.offset.toNat h'.stop =
      false := by
  simp only [overlap, Bool.and_eq_false_iff, decide_eq_false_iff_not, Nat.not_lt]
  exact hapart.symm

/-- An image is placed where there is room for it. -/
theorem place_cons_ok {header : ImageHeader} (hd : ImageHeader.Describes recordLen image header)
    (hoffset : header.offset = image.offset.getD (.ofNat next))
    (hstart : start ≤ header.offset.toNat) (hstop : header.stop < UInt32.size)
    (hapart : ∀ h ∈ placed, h.Apart header) :
    place recordLen start (image :: images) next placed =
      place recordLen start images (max next header.stop) (placed ++ [header]) := by
  have hheader : ⟨image.tag, recordLen, Checksum.of image.payload, header.imageLen, header.offset,
      image.flashAddress⟩ = header := by
    rw [← hd.tag, ← hd.headerLen, ← hd.checksum, ← hd.flashAddress]
  have hlen : Word.ofNat? image.payload.length = some header.imageLen :=
    Word.ofNat?_eq_some.2 hd.imageLen
  have hend : header.endOffset? = some (.ofNat header.stop) :=
    ImageHeader.endOffset?_eq_some.2 (UInt32.toNat_ofNat_of_lt' hstop)
  have hno : placed.any (fun h => overlap h.offset.toNat (h.offset.toNat + h.imageLen.toNat)
      header.offset.toNat header.stop) = false := by
    rw [List.any_eq_false]
    intro h hh
    rw [overlap_of_apart (hapart h hh)]
    exact Bool.false_ne_true
  simp only [place, hlen, ← hoffset, hheader, if_neg (Nat.not_lt.2 hstart), hend,
    UInt32.toNat_ofNat_of_lt' hstop, hno]
  rfl

/-- Images whose ranges are in place are placed. -/
theorem place_of_ranges (hnext : next < UInt32.size)
    (hfront : next = frontier start (placed.map ImageHeader.range))
    (hwithin : ∀ r ∈ rangesFrom start (placed.map ImageHeader.range) images,
      start ≤ r.1 ∧ r.2 < UInt32.size)
    (hapart : (rangesFrom start (placed.map ImageHeader.range) images).Pairwise
      fun r r' => ¬(r'.1 < r.2 ∧ r.1 < r'.2)) :
    ∃ hs, place recordLen start images next placed = .ok hs := by
  induction images generalizing next placed with
  | nil => exact ⟨placed, rfl⟩
  | cons image images ih =>
    obtain ⟨r, hr, _, hlen⟩ := mem_rangesFrom start (placed.map ImageHeader.range) image images
    have hshort := (hwithin r hr).2
    obtain ⟨header, hd, hoffset⟩ :=
      exists_describes recordLen image (image.offset.getD (.ofNat next)) (by omega)
    rw [rangesFrom_cons hd hoffset hnext hfront] at hwithin hapart
    -- The range of the image is among those that are in place, and so are all before it.
    have htaken := taken_sublist start ((placed ++ [header]).map ImageHeader.range) images
    obtain ⟨hstart, hstop⟩ := hwithin header.range (htaken.subset (by simp))
    have hbefore := hapart.sublist htaken
    rw [List.map_append, List.pairwise_append] at hbefore
    have hplaced : ∀ h ∈ placed, h.Apart header := by
      intro h hh
      rw [ImageHeader.apart_iff]
      exact hbefore.2.2 _ (List.mem_map_of_mem hh) _ (List.mem_singleton_self _)
    rw [place_cons_ok hd hoffset hstart hstop hplaced]
    refine ih (Nat.max_lt.2 ⟨hnext, hstop⟩) ?_ hwithin hapart
    rw [List.map_append, List.map_singleton, frontier_append, ← hfront]
    rfl

/-! ## The header records -/

theorem headers_eq_place (hlen : b.blockLen = .ok b.extent) (hlt : b.extent < UInt32.size) :
    b.headers = place b.recordLen b.extent b.images b.extent [] := by
  have hword : Word.ofNat? b.extent = some (.ofNat b.extent) :=
    Word.ofNat?_eq_some.2 (UInt32.toNat_ofNat_of_lt' hlt)
  simp only [headers, hlen, hword, UInt32.toNat_ofNat_of_lt' hlt, bind, Except.bind]

theorem Layable.blockLen (h : b.Layable) : b.blockLen = .ok b.extent := by
  rw [Builder.blockLen, headerBlockLen, if_neg, extent]
  rw [not_or, Nat.not_lt, List.length_eq_zero_iff]
  exact ⟨h.images, h.recordLen⟩

theorem Placed.start_eq (h : b.Placed start hs) : start = b.extent := by
  rw [(blockLen_eq_ok h.blockLen).2.2, extent, Nat.add_comm]

theorem placed_of_headers (h : b.headers = .ok hs) : b.Placed b.extent hs := by
  obtain ⟨start, hplaced⟩ := headers_eq_ok h
  rwa [← hplaced.start_eq]

/-- The records have the ranges of the images. -/
theorem map_range_headers (h : b.headers = .ok hs) : hs.map ImageHeader.range = b.ranges := by
  have hplaced := placed_of_headers h
  rw [headers_eq_place hplaced.blockLen hplaced.start_lt] at h
  exact place_ranges h hplaced.start_lt rfl

theorem layable_of_headers (h : b.headers = .ok hs) : b.Layable := by
  have hplaced := placed_of_headers h
  obtain ⟨himages, hrecordLen, _⟩ := blockLen_eq_ok hplaced.blockLen
  refine ⟨himages, hrecordLen, hplaced.start_lt, ?_, ?_⟩
  · intro r hr
    rw [← map_range_headers h] at hr
    obtain ⟨header, hheader, rfl⟩ := List.mem_map.1 hr
    exact hplaced.behind header hheader
  · rw [← map_range_headers h, List.pairwise_map]
    exact hplaced.apart.imp ImageHeader.apart_iff.1

/-- The images are placed exactly if their ranges allow it. -/
theorem headers_ok_iff : (∃ hs, b.headers = .ok hs) ↔ b.Layable := by
  constructor
  · intro h
    obtain ⟨hs, h⟩ := h
    exact layable_of_headers h
  · intro h
    rw [headers_eq_place h.blockLen h.extent_lt]
    exact place_of_ranges h.extent_lt rfl h.within h.apart

/-- The container ends where its header block and all its payloads have ended. -/
theorem totalLen_of_headers (h : b.headers = .ok hs) : b.totalLen = .ok b.length := by
  have hplaced := placed_of_headers h
  simp only [totalLen, hplaced.blockLen, h, bind, Except.bind, pure, Except.pure, Except.ok.injEq]
  rw [length, ← map_range_headers h, frontier, List.foldl_map, List.foldl_map]
  rfl

theorem fits_of_headers (h : b.headers = .ok hs) : b.Fits b.extent hs b.length := by
  obtain ⟨start, hs', hh, hfits⟩ := totalLen_eq_ok (totalLen_of_headers h)
  cases h.symm.trans hh
  obtain rfl := hfits.start_eq
  exact hfits

/-! ## Packing -/

theorem build_of_refused {e : ContainerError} (h : b.totalLen = .error e) (out : Bytes) :
    b.build out = .error e out := by
  rw [build, h]
  rfl

theorem build_of_short (h : b.totalLen = .ok total) (hlen : out.length < total) :
    b.build out = .error (.outputTooSmall total) out := by
  rw [build, h]
  change (if out.length < total then throw (.outputTooSmall total) else _ : Emit Nat) out = _
  rw [if_pos hlen]
  rfl

/-- In a buffer that is long enough, nothing can go wrong. -/
theorem Fits.build_ok (h : b.Fits start hs total) (hheaders : b.headers = .ok hs)
    (htotal : b.totalLen = .ok total) (hlen : total ≤ out.length) :
    b.build out = .ok total (out.overlay 0 (b.packed hs total)) := by
  have hpart : ((out.drop 0).take (total - 0)).length = total := by
    rw [List.drop_zero, Nat.sub_zero, List.length_take_of_le hlen]
  have hwithin := Emit.within_ok (h.emit_ok hpart)
  refine bind_eq_ok.2 ⟨total, out, ofExcept_eq_ok.2 ⟨htotal, rfl⟩, ?_⟩
  refine bind_eq_ok.2 ⟨out, out, rfl, ?_⟩
  rw [if_neg (Nat.not_lt.2 hlen)]
  refine bind_eq_ok.2 ⟨hs, out, ofExcept_eq_ok.2 ⟨hheaders, rfl⟩, ?_⟩
  exact bind_eq_ok.2 ⟨(), _, hwithin, rfl⟩

/-- A builder that fails has left the buffer alone. -/
theorem eq_of_build_error {e : ContainerError} (h : b.build out = .error e out') : out' = out := by
  cases htotal : b.totalLen with
  | error e' =>
    rw [build_of_refused htotal] at h
    cases h
    rfl
  | ok total =>
    obtain ⟨start, hs, hheaders, hfits⟩ := totalLen_eq_ok htotal
    rcases Nat.lt_or_ge out.length total with hlen | hlen
    · rw [build_of_short htotal hlen] at h
      cases h
      rfl
    · rw [hfits.build_ok hheaders htotal hlen] at h
      cases h

theorem build_ok_iff (hheaders : b.headers = .ok hs) (out : Bytes) :
    (∃ out', b.build out = .ok b.length out') ↔ b.length ≤ out.length := by
  constructor
  · intro h
    obtain ⟨out', h⟩ := h
    obtain ⟨_, _, _, hlen, _⟩ := build_eq_ok h
    exact hlen
  · intro hlen
    exact ⟨_, (fits_of_headers hheaders).build_ok hheaders (totalLen_of_headers hheaders) hlen⟩

end Builder

/-! ## What the buffer holds then -/

namespace Bytes

theorem overlay_zero (b x : Bytes) : b.overlay 0 x = x ++ b.drop x.length := by
  simp [overlay]

theorem getElem?_window (b : Bytes) (k : Nat) : b[k]? = ((b.drop k).take 1)[0]? := by
  simp

/-- A byte that no piece covers is as before. -/
theorem getElem?_overlays {b : Bytes} {ps : List (Nat × Bytes)} {k : Nat}
    (h : ∀ p ∈ ps, p.1 + p.2.length ≤ b.length)
    (hk : ∀ p ∈ ps, ¬(p.1 ≤ k ∧ k < p.1 + p.2.length)) : (b.overlays ps)[k]? = b[k]? := by
  rw [getElem?_window, getElem?_window b]
  refine congrArg (·[0]?) (overlays_frame h fun p hp => ?_)
  have hout := hk p hp
  simp only [Misses]
  omega

end Bytes

namespace ImageHeader

variable {b : Bytes} {pos n : Nat} {h : ImageHeader}

theorem standsAt_of_decode (hlen : length ≤ b.length) (hd : decode b = .ok h) : StandsAt b 0 h := by
  have hroom : 0 + length ≤ b.length := by omega
  obtain ⟨h', hs⟩ := exists_standsAt hroom
  cases hs.decode.symm.trans hd
  exact hs

theorem StandsAt.of_take (hs : StandsAt (b.take n) pos h) : StandsAt b pos h := by
  have hlen := hs.le_length
  rw [List.length_take] at hlen
  have hroom : pos + length ≤ b.length := by omega
  obtain ⟨h', hs'⟩ := exists_standsAt hroom
  rwa [hs.unique (hs'.take (by omega))]

end ImageHeader

theorem Prologue.leads_of_decode_take {p : Prologue} {b : Bytes} {n : Nat} (hn : length ≤ n)
    (hlen : length ≤ b.length) (h : Prologue.decode (b.take n) = .ok p) : p.Leads b := by
  obtain ⟨p', hp'⟩ := exists_leads hlen
  have hread := (hp'.take hn).decode
  rw [h] at hread
  cases hl : p'.blockLen with
  | error e => rw [hl] at hread; cases hread
  | ok d =>
    rw [hl] at hread
    cases hread
    exact hp'

theorem ImageHeader.getElem?_padded {h : ImageHeader} {len j : Nat} (hj : length ≤ j)
    (hlen : j < len) : (h.padded len)[j]? = some 0 := by
  rw [padded, List.getElem?_append_right (by rwa [length_bytes]), length_bytes,
    List.getElem?_replicate, if_pos (by omega)]

namespace Builder

variable {b : Builder} {hs : List ImageHeader} {header : ImageHeader} {start total k i : Nat}
  {out out' : Bytes}

/-- The position is in none of the parts that a container is made of: not in the file header, not
among the fields of a record, and not in a payload. -/
structure Gap (b : Builder) (k : Nat) : Prop where
  file : FileHeader.length ≤ k
  record : ∀ i < b.images.length,
    ¬(b.prologue.recordAt i ≤ k ∧ k < b.prologue.recordAt i + ImageHeader.length)
  payload : ∀ r ∈ b.ranges, ¬(r.1 ≤ k ∧ k < r.2)

/-- What a buffer holds after packing, where it held `out` before. -/
structure Holds (b : Builder) (hs : List ImageHeader) (out out' : Bytes) : Prop where
  length : out'.length = out.length
  prologue : b.prologue.Leads out'
  records : b.prologue.Lists out' hs
  payloads : List.Forall₂ (ImageHeader.Locates out' b.recordLen) b.images hs
  gaps : ∀ k < b.length, b.Gap k → out'[k]? = some 0
  rest : out'.drop b.length = out.drop b.length

/-- The records of a block are behind its file header, one after the other. -/
theorem Placed.window_block (h : b.Placed start hs) (hi : hs[i]? = some header) :
    ((b.block hs).drop (b.prologue.recordAt i)).take b.recordLen.toNat =
      header.padded b.recordLen.toNat := by
  obtain ⟨_, hrecord, _⟩ := blockLen_eq_ok h.blockLen
  obtain ⟨hlt, rfl⟩ := List.getElem?_eq_some_iff.1 hi
  have hpieces := Bytes.pieces_flatMap (ImageHeader.length_padded hrecord) hs
  have hcount : i < (Bytes.pieces b.recordLen.toNat hs.length
      (hs.flatMap (ImageHeader.padded b.recordLen.toNat))).length := by
    rwa [Bytes.length_pieces]
  rw [block, Prologue.recordAt, ← List.drop_drop, List.drop_left' (FileHeader.length_bytes _)]
  calc ((hs.flatMap (ImageHeader.padded b.recordLen.toNat)).drop
          (i * b.recordLen.toNat)).take b.recordLen.toNat
      = (Bytes.pieces b.recordLen.toNat hs.length
          (hs.flatMap (ImageHeader.padded b.recordLen.toNat)))[i] :=
        (Bytes.getElem_pieces hcount).symm
    _ = hs[i].padded b.recordLen.toNat := by simp only [hpieces, List.getElem_map]

theorem Placed.standsAt_block (h : b.Placed start hs) (hi : hs[i]? = some header) :
    header.StandsAt (b.block hs) (b.prologue.recordAt i) := by
  obtain ⟨_, hrecord, _⟩ := blockLen_eq_ok h.blockLen
  have hstands : header.StandsAt (header.padded b.recordLen.toNat) 0 :=
    ImageHeader.standsAt_of_decode (by rwa [header.length_padded hrecord])
      (header.decode_padded b.recordLen.toNat)
  rw [← h.window_block hi] at hstands
  exact (ImageHeader.standsAt_drop (n := b.prologue.recordAt i)).1 hstands.of_take

/-- What a block has behind the fields of a record is zero. -/
theorem Placed.block_gap (h : b.Placed start hs) (hgap : b.Gap k) (hk : k < start) :
    (b.block hs)[k]? = some 0 := by
  obtain ⟨_, hrecord, hstart⟩ := blockLen_eq_ok h.blockLen
  have hfile := hgap.file
  have hpos : 0 < b.recordLen.toNat := Nat.lt_of_lt_of_le (by decide) hrecord
  -- The position in terms of a record, and of a byte of it.
  generalize hq : (k - FileHeader.length) / b.recordLen.toNat = q
  generalize hj : (k - FileHeader.length) % b.recordLen.toNat = j
  have hsplit : k = b.prologue.recordAt q + j := by
    have hdiv := Nat.div_add_mod' (k - FileHeader.length) b.recordLen.toNat
    rw [hq, hj] at hdiv
    change k = FileHeader.length + q * b.recordLen.toNat + j
    omega
  have hjlt : j < b.recordLen.toNat := hj ▸ Nat.mod_lt _ hpos
  have hqlt : q < b.images.length := by
    rw [← hq, Nat.div_lt_iff_lt_mul hpos]
    omega
  have hbehind : ImageHeader.length ≤ j := by
    have hno := hgap.record q hqlt
    omega
  obtain ⟨header, hheader⟩ : ∃ header, hs[q]? = some header :=
    ⟨_, List.getElem?_eq_getElem (h.describes.length_eq ▸ hqlt)⟩
  calc (b.block hs)[k]?
      = (((b.block hs).drop (b.prologue.recordAt q)).take b.recordLen.toNat)[j]? := by
        rw [hsplit, List.getElem?_take_of_lt hjlt, List.getElem?_drop]
    _ = some 0 := by
        rw [h.window_block hheader]
        exact ImageHeader.getElem?_padded hbehind hjlt

/-- Between the parts of a container there are zeros. -/
theorem Fits.packed_gap (h : b.Fits start hs total) (hranges : hs.map ImageHeader.range = b.ranges)
    (hgap : b.Gap k) (hk : k < total) : (b.packed hs total)[k]? = some 0 := by
  have hblock := h.length_block
  rw [packed, Bytes.getElem?_overlays h.payloads_within]
  · rw [Bytes.overlay_zero]
    rcases Nat.lt_or_ge k start with hfront | hback
    · rw [List.getElem?_append_left (by omega)]
      exact h.block_gap hgap hfront
    · rw [List.getElem?_append_right (by omega), List.getElem?_drop, Bytes.zeros,
        List.getElem?_replicate, if_pos (by omega)]
  · intro p hp
    obtain ⟨q, hq, rfl⟩ := List.mem_map.1 hp
    rw [h.stop_of_zip q hq]
    refine hgap.payload q.2.range ?_
    rw [← hranges]
    exact List.mem_map_of_mem (List.of_mem_zip hq).2

/-- The packed container, and the rest of the buffer behind it. -/
theorem Fits.holds (h : b.Fits start hs b.length) (hranges : hs.map ImageHeader.range = b.ranges)
    (hlen : b.length ≤ out.length) : b.Holds hs out (out.overlay 0 (b.packed hs b.length)) := by
  have hpacked := h.length_packed
  have hsame : (out.overlay 0 (b.packed hs b.length)).length = out.length :=
    Bytes.length_overlay (by rwa [hpacked, Nat.zero_add])
  have hfront : (out.overlay 0 (b.packed hs b.length)).take start = b.block hs := by
    rw [Bytes.overlay_zero, List.take_append_of_le_length (hpacked.symm ▸ h.start_le),
      h.take_packed]
  constructor
  case length => exact hsame
  case prologue =>
    refine Prologue.leads_of_decode_take h.length_le_start ?_ (hfront ▸ h.decode_block)
    exact hsame ▸ Nat.le_trans h.length_le_start (Nat.le_trans h.start_le hlen)
  case records =>
    refine ⟨h.describes.length_eq.symm.trans b.headerCount_prologue.symm, fun i header hi => ?_⟩
    exact ImageHeader.StandsAt.of_take (hfront ▸ h.standsAt_block hi)
  case payloads =>
    refine h.locates.imp fun image header hl => ⟨hl.2.toDescribes, ?_⟩
    have hstop : header.offset.toNat + header.imageLen.toNat ≤ b.length := h.stop_le header hl.1
    rw [← hl.2.payload, Bytes.overlay_zero, List.drop_append_of_le_length (by omega),
      List.take_append_of_le_length (by rw [List.length_drop]; omega)]
  case gaps =>
    intro k hk hgap
    rw [Bytes.overlay_zero, List.getElem?_append_left (by omega)]
    exact h.packed_gap hranges hgap hk
  case rest => rw [Bytes.overlay_zero, List.drop_left' hpacked, hpacked]

/-- Packing leaves a buffer that holds the container. -/
theorem holds_of_build (hheaders : b.headers = .ok hs) (h : b.build out = .ok total out') :
    total = b.length ∧ b.Holds hs out out' := by
  have htotal := totalLen_of_headers hheaders
  have hfits := fits_of_headers hheaders
  rcases Nat.lt_or_ge out.length b.length with hlen | hlen
  · rw [build_of_short htotal hlen] at h
    cases h
  · rw [hfits.build_ok hheaders htotal hlen] at h
    cases h
    exact ⟨rfl, hfits.holds (map_range_headers hheaders) hlen⟩

/-- Images are placed exactly if their ranges allow it, and nothing else can go wrong in a buffer
that is long enough. What it holds then is the container, with zeros between its parts, and what it
held before behind it. A buffer that nothing was packed into is as before. -/
theorem build_exact (b : Builder) :
    ((∃ hs, b.headers = .ok hs) ↔ b.Layable) ∧
    (∀ hs, b.headers = .ok hs → hs.map ImageHeader.range = b.ranges ∧ b.totalLen = .ok b.length ∧
      ∀ out, (∃ out', b.build out = .ok b.length out') ↔ b.length ≤ out.length) ∧
    (∀ out total out', b.build out = .ok total out' →
      total = b.length ∧ ∃ hs, b.headers = .ok hs ∧ b.Holds hs out out') ∧
    ∀ out e out', b.build out = .error e out' → out' = out := by
  refine ⟨headers_ok_iff, ?_, ?_, fun out e out' => eq_of_build_error⟩
  · intro hs h
    exact ⟨map_range_headers h, totalLen_of_headers h, build_ok_iff h⟩
  · intro out total out' h
    obtain ⟨_, hs, hheaders, _⟩ := build_packs h
    obtain ⟨htotal, hholds⟩ := holds_of_build hheaders h
    exact ⟨htotal, hs, hheaders, hholds⟩

/-- The records are padded, and there is a gap in front of the second payload. -/
def spaced : Builder where
  version := 3
  recordLen := 28
  images := [⟨.ota1, 0, [1, 2, 3], none⟩, ⟨.rdp, 0x2000, [4, 5], some 70⟩]

/-- The gap is filled in a buffer of 80 bytes, and one of 71 bytes is left alone. -/
theorem build_exact_spaced : ∃ hs out', spaced.headers = .ok hs ∧
    hs.map ImageHeader.range = [(64, 67), (70, 72)] ∧ spaced.totalLen = .ok 72 ∧
    spaced.build (List.replicate 80 erasedByte) = .ok 72 out' ∧
    spaced.Holds hs (List.replicate 80 erasedByte) out' ∧ out'[68]? = some 0 ∧
    ∃ e out'', spaced.build (List.replicate 71 erasedByte) = .error e out'' ∧
      out'' = List.replicate 71 erasedByte := by
  obtain ⟨hlayable, hheaders, hok, herror⟩ := build_exact spaced
  obtain ⟨hs, hh⟩ := hlayable.2 ⟨by simp [spaced], by decide, by decide, by decide, by decide⟩
  obtain ⟨hranges, htotal, hroom⟩ := hheaders hs hh
  obtain ⟨out', hbuild⟩ := (hroom (List.replicate 80 erasedByte)).2 (by decide)
  obtain ⟨_, hs', hh', hholds⟩ := hok _ _ _ hbuild
  cases hh.symm.trans hh'
  have hgap : spaced.Gap 68 := ⟨by decide, by decide, by decide⟩
  have hshort : spaced.build (List.replicate 71 erasedByte) = _ :=
    build_of_short htotal (by decide)
  exact ⟨hs, out', hh, hranges, htotal, hbuild, hholds, hholds.gaps 68 (by decide) hgap, _, _,
    hshort, herror _ _ _ hshort⟩

end Builder
end DualBank
