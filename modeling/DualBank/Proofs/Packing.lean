import Mathlib.Data.List.Forall2
import Mathlib.Data.List.Pairwise
import DualBank.Container.Builder
import DualBank.Proofs.Reception

/-! What the builder writes. Its output begins with the file header and one record for each image,
which read back as they were placed, and every payload is where its record says, since no two
records share a byte of the stream. -/
namespace DualBank

/-! ## Bytes that are written over others -/

namespace Bytes

variable {b x y : Bytes} {pos start len : Nat}

def zeros (n : Nat) : Bytes := List.replicate n 0

theorem length_zeros (n : Nat) : (zeros n).length = n := List.length_replicate

/-- Every piece written at its position, one after the other. -/
def overlays (b : Bytes) (ps : List (Nat × Bytes)) : Bytes :=
  ps.foldl (fun b p => b.overlay p.1 p.2) b

/-- The piece has no byte in the stretch that is read. -/
def Misses (start len : Nat) (p : Nat × Bytes) : Prop :=
  start + len ≤ p.1 ∨ p.1 + p.2.length ≤ start

/-- What was written is read back. -/
theorem overlay_read (h : pos ≤ b.length) : ((b.overlay pos x).drop pos).take x.length = x := by
  have hlen : (b.take pos).length = pos := List.length_take_of_le h
  rw [overlay, List.append_assoc, List.drop_left' hlen, List.take_left]

/-- What lies beside it is read as before. -/
theorem overlay_frame (h : pos + x.length ≤ b.length) (hm : Misses start len (pos, x)) :
    ((b.overlay pos x).drop start).take len = (b.drop start).take len := by
  rcases hm with hbefore | hafter
  · have hlen : (b.take pos).length = pos := List.length_take_of_le (by omega)
    have hfront : (b.overlay pos x).take (start + len) = b.take (start + len) := by
      rw [overlay, List.append_assoc, List.take_append_of_le_length (by rwa [hlen]), List.take_take,
        Nat.min_eq_left hbefore]
    have hcut : ∀ c : Bytes, (c.drop start).take len = (c.take (start + len)).drop start := by
      intro c
      rw [List.drop_take, Nat.add_sub_cancel_left]
    rw [hcut, hcut, hfront]
  · have hpos : pos ≤ b.length := by omega
    have hback := drop_overlay hpos x
    have hcut : ∀ c : Bytes, c.drop start =
        (c.drop (pos + x.length)).drop (start - (pos + x.length)) := by
      intro c
      rw [List.drop_drop, Nat.add_sub_cancel' hafter]
    rw [hcut (b.overlay pos x), hback, ← hcut]

theorem length_overlays {ps : List (Nat × Bytes)} (h : ∀ p ∈ ps, p.1 + p.2.length ≤ b.length) :
    (b.overlays ps).length = b.length := by
  induction ps generalizing b with
  | nil => rfl
  | cons p ps ih =>
    have hlen := length_overlay (h p List.mem_cons_self)
    refine Eq.trans (ih (b := b.overlay p.1 p.2) fun q hq => ?_) hlen
    rw [hlen]
    exact h q (List.mem_cons_of_mem _ hq)

theorem overlays_frame {ps : List (Nat × Bytes)} (h : ∀ p ∈ ps, p.1 + p.2.length ≤ b.length)
    (hm : ∀ p ∈ ps, Misses start len p) :
    ((b.overlays ps).drop start).take len = (b.drop start).take len := by
  induction ps generalizing b with
  | nil => rfl
  | cons p ps ih =>
    have hfirst := h p List.mem_cons_self
    have hlen := length_overlay hfirst
    refine Eq.trans (ih (b := b.overlay p.1 p.2) (fun q hq => ?_) fun q hq =>
      hm q (List.mem_cons_of_mem _ hq)) (overlay_frame hfirst (hm p List.mem_cons_self))
    rw [hlen]
    exact h q (List.mem_cons_of_mem _ hq)

/-- Pieces that do not meet are all there in the end. -/
theorem overlays_read {ps : List (Nat × Bytes)} (h : ∀ p ∈ ps, p.1 + p.2.length ≤ b.length)
    (hapart : ps.Pairwise fun p q => Misses p.1 p.2.length q) :
    ∀ p ∈ ps, ((b.overlays ps).drop p.1).take p.2.length = p.2 := by
  induction ps generalizing b with
  | nil => simp
  | cons p ps ih =>
    obtain ⟨hp, hps⟩ := List.pairwise_cons.1 hapart
    have hfirst := h p List.mem_cons_self
    have hlen := length_overlay hfirst
    have hrest : ∀ q ∈ ps, q.1 + q.2.length ≤ (b.overlay p.1 p.2).length := by
      intro q hq
      rw [hlen]
      exact h q (List.mem_cons_of_mem _ hq)
    intro q hq
    rcases List.mem_cons.1 hq with rfl | hq
    · exact (overlays_frame hrest hp).trans (overlay_read (by omega))
    · exact ih hrest hps q hq

/-- Records of one length are cut apart again. -/
theorem pieces_flatMap {α : Type} {size : Nat} {f : α → Bytes} (hf : ∀ a, (f a).length = size)
    (as : List α) : pieces size as.length (as.flatMap f) = as.map f := by
  induction as with
  | nil => rfl
  | cons a as ih =>
    rw [List.flatMap_cons, List.length_cons, pieces, ← hf a, List.take_left, List.drop_left, hf a,
      ih, List.map_cons]

theorem length_flatMap_of {α : Type} {size : Nat} {f : α → Bytes} (hf : ∀ a, (f a).length = size)
    (as : List α) : (as.flatMap f).length = as.length * size := by
  induction as with
  | nil => simp
  | cons a as ih =>
    rw [List.flatMap_cons, List.length_append, hf, ih, List.length_cons, Nat.succ_mul, Nat.add_comm]

end Bytes

theorem Word.at?_of_drop {b rest : Bytes} {pos : Nat} {w : Word}
    (h : b.drop pos = w.toBytes ++ rest) : Word.at? b pos = some w := by
  have hw := Word.at?_toBytes w rest
  unfold Word.at? at hw ⊢
  rw [h]
  exact hw

/-! ## Records -/

/-- The file header on the wire. -/
def FileHeader.bytes (h : FileHeader) : Bytes := h.version.toBytes ++ h.headerCount.toBytes

theorem FileHeader.length_bytes (h : FileHeader) : h.bytes.length = length := rfl

namespace ImageHeader

/-- The record on the wire, without padding. -/
def bytes (h : ImageHeader) : Bytes :=
  h.tag.bytes ++ h.headerLen.toBytes ++ h.checksum.toBytes ++ h.imageLen.toBytes ++
    h.offset.toBytes ++ h.flashAddress.toBytes

/-- The record, padded to a length. -/
def padded (len : Nat) (h : ImageHeader) : Bytes := h.bytes ++ List.replicate (len - length) 0

theorem length_bytes (h : ImageHeader) : h.bytes.length = length := rfl

theorem length_padded {len : Nat} (hlen : length ≤ len) (h : ImageHeader) :
    (h.padded len).length = len := by
  rw [padded, List.length_append, List.length_replicate, length_bytes]
  omega

theorem decode_padded (len : Nat) (h : ImageHeader) : decode (h.padded len) = .ok h := by
  have htag : (h.padded len).slice? 0 4 = some h.tag.bytes := by
    refine Bytes.slice?_eq_some.2 ⟨by decide, ?_, rfl⟩
    rw [padded, List.length_append, length_bytes]
    simp only [length]
    omega
  have hheaderLen : Word.at? (h.padded len) 4 = some h.headerLen := Word.at?_of_drop rfl
  have hchecksum : Word.at? (h.padded len) 8 = some h.checksum := Word.at?_of_drop rfl
  have himageLen : Word.at? (h.padded len) 12 = some h.imageLen := Word.at?_of_drop rfl
  have hoffset : Word.at? (h.padded len) 16 = some h.offset := Word.at?_of_drop rfl
  have haddress : Word.at? (h.padded len) 20 = some h.flashAddress := Word.at?_of_drop rfl
  have hdecoded : decode? (h.padded len) = some h := by
    unfold decode?
    rw [htag, hheaderLen, hchecksum, himageLen, hoffset, haddress]
    rfl
  rw [decode, hdecoded]

/-- Stream position one past the payload. -/
def stop (h : ImageHeader) : Nat := h.offset.toNat + h.imageLen.toNat

theorem endOffset?_eq_some {h : ImageHeader} {w : Word} :
    h.endOffset? = some w ↔ w.toNat = h.stop :=
  Word.plus?_eq_some

/-- One payload ends before the other begins. -/
def Apart (h h' : ImageHeader) : Prop := h.stop ≤ h'.offset.toNat ∨ h'.stop ≤ h.offset.toNat

instance : Std.Symm Apart := ⟨fun _ _ => Or.symm⟩

/-- The record is that of the image, wherever its payload is. -/
structure Describes (recordLen : Word) (image : ImageSpec) (h : ImageHeader) : Prop where
  tag : h.tag = image.tag
  headerLen : h.headerLen = recordLen
  checksum : h.checksum = Checksum.of image.payload
  imageLen : h.imageLen.toNat = image.payload.length
  flashAddress : h.flashAddress = image.flashAddress

/-- Besides, its payload is there in the container. -/
structure Locates (C : Bytes) (recordLen : Word) (image : ImageSpec) (h : ImageHeader) : Prop
    extends Describes recordLen image h where
  payload : (C.drop h.offset.toNat).take h.imageLen.toNat = image.payload

end ImageHeader

/-! ## Emission -/

namespace Emit

variable {α : Type} {k : Unit → Emit α} {out x y : Bytes} {pos : Nat}

theorem put_bind (h : pos + x.length ≤ out.length) :
    (put pos x >>= k) out = k () (out.overlay pos x) := by
  simp only [bind, EStateM.bind, put, if_pos h]

/-- Pieces that are put one behind the other, and then the rest of the action. -/
def puts (k : Emit Unit) : (pos : Nat) → List Bytes → Emit Unit
  | _, [] => k
  | pos, x :: xs => put pos x >>= fun _ => puts k (pos + x.length) xs

theorem puts_eq {k : Emit Unit} {xs : List Bytes} (h : pos + xs.flatten.length ≤ out.length) :
    puts k pos xs out = k (out.overlay pos xs.flatten) := by
  induction xs generalizing pos out with
  | nil => rw [List.flatten_nil, Bytes.overlay_nil]; rfl
  | cons x xs ih =>
    rw [List.flatten_cons, List.length_append] at h
    have hlen : (out.overlay pos x).length = out.length := Bytes.length_overlay (by omega)
    rw [puts, put_bind (by omega), ih (by omega), Bytes.overlay_overlay (by omega),
      List.flatten_cons]

theorem within_ok {start stop : Nat} {e : Emit α} {v : α} {part : Bytes}
    (h : e ((out.drop start).take (stop - start)) = .ok v part) :
    within start stop e out = .ok v (out.overlay start part) := by
  rw [within, h]

end Emit

theorem FileHeader.emit_ok (h : FileHeader) {out : Bytes} (hlen : length ≤ out.length) :
    h.emit out = .ok () (out.overlay 0 h.bytes) := by
  have hemit : h.emit = Emit.puts (Emit.put 4 h.headerCount.toBytes) 0 [h.version.toBytes] := rfl
  have hversion : (out.overlay 0 h.version.toBytes).length = out.length :=
    Bytes.length_overlay (Nat.le_trans (by simp [length]) hlen)
  rw [hemit, Emit.puts_eq (Nat.le_trans (by simp [length]) hlen), List.flatten_singleton, Emit.put,
    if_pos (by rwa [hversion]), bytes]
  exact congrArg _ (Bytes.overlay_overlay (Nat.zero_le _) _ _)

theorem ImageHeader.emit_ok (h : ImageHeader) {out : Bytes} (hlen : length ≤ out.length) :
    h.emit out = .ok () (h.padded out.length) := by
  have hemit : h.emit = Emit.puts
      (modify fun out => out.take length ++ List.replicate (out.length - length) 0) 0
      [h.tag.bytes, h.headerLen.toBytes, h.checksum.toBytes, h.imageLen.toBytes, h.offset.toBytes,
        h.flashAddress.toBytes] := rfl
  have hfields : [h.tag.bytes, h.headerLen.toBytes, h.checksum.toBytes, h.imageLen.toBytes,
      h.offset.toBytes, h.flashAddress.toBytes].flatten = h.bytes := rfl
  have hfits : 0 + h.bytes.length ≤ out.length := by rwa [Nat.zero_add, length_bytes]
  have hfront : (out.overlay 0 h.bytes).take length = h.bytes :=
    Bytes.take_overlay_zero out h.bytes
  rw [hemit, Emit.puts_eq (by rwa [hfields]), hfields]
  change EStateM.Result.ok () ((out.overlay 0 h.bytes).take length ++
    List.replicate ((out.overlay 0 h.bytes).length - length) 0) = _
  rw [hfront, Bytes.length_overlay hfits, padded]

namespace Builder

theorem emitRecords_ok {recordLen pos : Nat} {hs : List ImageHeader} {out : Bytes}
    (hlen : ImageHeader.length ≤ recordLen) (hfits : pos + hs.length * recordLen ≤ out.length) :
    emitRecords recordLen pos hs out =
      .ok () (out.overlay pos (hs.flatMap (ImageHeader.padded recordLen))) := by
  induction hs generalizing pos out with
  | nil => rw [List.flatMap_nil, Bytes.overlay_nil]; rfl
  | cons h hs ih =>
    rw [List.length_cons, Nat.succ_mul] at hfits
    have hpart : ((out.drop pos).take (pos + recordLen - pos)).length = recordLen := by
      rw [List.length_take, List.length_drop]
      omega
    have hpadded := h.length_padded hlen
    have hemit := Emit.within_ok (h.emit_ok (Nat.le_trans hlen (Nat.le_of_eq hpart.symm)))
    rw [hpart] at hemit
    have hsame : (out.overlay pos (h.padded recordLen)).length = out.length :=
      Bytes.length_overlay (by omega)
    have hjoin : (out.overlay pos (h.padded recordLen)).overlay (pos + recordLen)
        (hs.flatMap (ImageHeader.padded recordLen)) =
        out.overlay pos (h.padded recordLen ++ hs.flatMap (ImageHeader.padded recordLen)) := by
      rw [← Bytes.overlay_overlay (by omega), hpadded]
    rw [List.flatMap_cons, ← hjoin]
    exact bind_eq_ok.2 ⟨(), _, hemit, ih (by omega)⟩

theorem emitPayloads_ok {ps : List (ImageSpec × ImageHeader)} {out : Bytes}
    (h : ∀ p ∈ ps, p.2.offset.toNat + p.1.payload.length ≤ out.length) :
    emitPayloads ps out =
      .ok () (out.overlays (ps.map fun p => (p.2.offset.toNat, p.1.payload))) := by
  induction ps generalizing out with
  | nil => rfl
  | cons p ps ih =>
    have hfirst := h p List.mem_cons_self
    have hlen := Bytes.length_overlay hfirst
    refine (Emit.put_bind hfirst).trans (ih fun q hq => ?_)
    rw [hlen]
    exact h q (List.mem_cons_of_mem _ hq)

/-! ## Placing -/

theorem apart_of_overlap {h h' : ImageHeader}
    (hno : overlap h.offset.toNat (h.offset.toNat + h.imageLen.toNat) h'.offset.toNat h'.stop =
      false) : h.Apart h' := by
  simp only [overlap, Bool.and_eq_false_iff, decide_eq_false_iff_not, Nat.not_lt] at hno
  exact hno.symm

/-- One image is placed, behind the header block and where none is yet. -/
theorem place_cons_eq_ok {recordLen : Word} {blockLen next : Nat} {image : ImageSpec}
    {images : List ImageSpec} {placed hs : List ImageHeader}
    (h : place recordLen blockLen (image :: images) next placed = .ok hs) :
    ∃ header, ImageHeader.Describes recordLen image header ∧
      header.offset = image.offset.getD (.ofNat next) ∧ blockLen ≤ header.offset.toNat ∧
      header.stop < UInt32.size ∧ (∀ h ∈ placed, h.Apart header) ∧
      place recordLen blockLen images (max next header.stop) (placed ++ [header]) = .ok hs := by
  cases hl : Word.ofNat? image.payload.length with
  | none => simp only [place, hl] at h; cases h
  | some imageLen =>
    simp only [place, hl, bind, Except.bind] at h
    by_cases hblock : (image.offset.getD (.ofNat next)).toNat < blockLen
    · rw [if_pos hblock] at h; cases h
    · rw [if_neg hblock] at h
      generalize hheader : (⟨image.tag, recordLen, Checksum.of image.payload, imageLen,
        image.offset.getD (.ofNat next), image.flashAddress⟩ : ImageHeader) = header at h
      have hoffset : header.offset = image.offset.getD (.ofNat next) := by rw [← hheader]
      rw [← hoffset] at h hblock
      cases hs : header.endOffset? with
      | none => rw [hs] at h; cases h
      | some stop =>
        have hstop := ImageHeader.endOffset?_eq_some.1 hs
        simp only [hs, hstop] at h
        split at h
        · cases h
        · rename_i hno
          refine ⟨header, ?_, hoffset, Nat.le_of_not_lt hblock, hstop ▸ stop.toNat_lt_size,
            fun h' hh' => ?_, h⟩
          · rw [← hheader]
            exact ⟨rfl, rfl, rfl, Word.ofNat?_eq_some.1 hl, rfl⟩
          · simp only [List.any_eq_true, not_exists, not_and, Bool.not_eq_true] at hno
            exact apart_of_overlap (hno h' hh')

/-- Each image gets its record, the payloads lie behind the header block, and no two of them
overlap. -/
theorem place_eq_ok {recordLen : Word} {blockLen next : Nat} {images : List ImageSpec}
    {placed hs : List ImageHeader} (h : place recordLen blockLen images next placed = .ok hs)
    (hplaced : placed.Pairwise ImageHeader.Apart) :
    ∃ new, hs = placed ++ new ∧ List.Forall₂ (ImageHeader.Describes recordLen) images new ∧
      (∀ h ∈ new, blockLen ≤ h.offset.toNat ∧ h.stop < UInt32.size) ∧
      hs.Pairwise ImageHeader.Apart := by
  induction images generalizing next placed with
  | nil =>
    cases h
    exact ⟨[], (List.append_nil _).symm, .nil, by simp, hplaced⟩
  | cons image images ih =>
    obtain ⟨header, hdescribes, _, hblock, hstop, hapart, h⟩ := place_cons_eq_ok h
    have hnext : (placed ++ [header]).Pairwise ImageHeader.Apart :=
      List.pairwise_append.2 ⟨hplaced, List.pairwise_singleton _ _, by simpa using hapart⟩
    obtain ⟨new, rfl, hall, hwithin, hpairwise⟩ := ih h hnext
    refine ⟨header :: new, by simp, .cons hdescribes hall, ?_, hpairwise⟩
    simpa using ⟨⟨hblock, hstop⟩, hwithin⟩

/-- The records of a builder are placed behind a header block of this length. -/
structure Placed (b : Builder) (start : Nat) (hs : List ImageHeader) : Prop where
  blockLen : b.blockLen = .ok start
  start_lt : start < UInt32.size
  describes : List.Forall₂ (ImageHeader.Describes b.recordLen) b.images hs
  behind : ∀ h ∈ hs, start ≤ h.offset.toNat ∧ h.stop < UInt32.size
  apart : hs.Pairwise ImageHeader.Apart

variable {b : Builder} {hs : List ImageHeader} {start total : Nat} {out out' : Bytes}

theorem headers_eq_ok (h : b.headers = .ok hs) : ∃ start, b.Placed start hs := by
  unfold headers at h
  cases hl : b.blockLen with
  | error e => rw [hl] at h; cases h
  | ok blockLen =>
    cases hw : Word.ofNat? blockLen with
    | none => simp only [hl, bind, Except.bind, hw] at h; cases h
    | some w =>
      simp only [hl, bind, Except.bind, hw] at h
      have hword := Word.ofNat?_eq_some.1 hw
      rw [hword] at h
      obtain ⟨new, rfl, hdescribes, hbehind, hapart⟩ := place_eq_ok h .nil
      exact ⟨blockLen, hl, hword ▸ w.toNat_lt_size, hdescribes, hbehind, hapart⟩

theorem blockLen_eq_ok (h : b.blockLen = .ok start) : b.images ≠ [] ∧
    ImageHeader.length ≤ b.recordLen.toNat ∧
    start = FileHeader.length + b.images.length * b.recordLen.toNat := by
  unfold Builder.blockLen headerBlockLen at h
  split at h
  · cases h
  · rename_i hc
    cases h
    obtain ⟨hcount, hrecord⟩ := not_or.1 hc
    exact ⟨fun hnil => hcount (by rw [hnil]; rfl), Nat.le_of_not_lt hrecord, Nat.add_comm _ _⟩

/-- Besides, all of them end within so many bytes. -/
structure Fits (b : Builder) (start : Nat) (hs : List ImageHeader) (total : Nat) : Prop
    extends b.Placed start hs where
  start_le : start ≤ total
  stop_le : ∀ h ∈ hs, h.stop ≤ total

theorem totalLen_eq_ok (h : b.totalLen = .ok total) :
    ∃ start hs, b.headers = .ok hs ∧ b.Fits start hs total := by
  have hmax : ∀ (hs : List ImageHeader) (n : Nat),
      n ≤ hs.foldl (fun total h => max total (h.offset.toNat + h.imageLen.toNat)) n ∧
      ∀ h ∈ hs, h.stop ≤
        hs.foldl (fun total h => max total (h.offset.toNat + h.imageLen.toNat)) n := by
    intro hs
    induction hs with
    | nil => simp
    | cons h hs ih =>
      intro n
      obtain ⟨hle, hall⟩ := ih (max n h.stop)
      refine ⟨Nat.le_trans (Nat.le_max_left _ _) hle, fun h' hh' => ?_⟩
      rcases List.mem_cons.1 hh' with rfl | hh'
      · exact Nat.le_trans (Nat.le_max_right _ _) hle
      · exact hall h' hh'
  unfold totalLen at h
  cases hh : b.headers with
  | error e => cases hl : b.blockLen <;> simp only [hl, hh, bind, Except.bind] at h <;> cases h
  | ok hs =>
    obtain ⟨start, hplaced⟩ := headers_eq_ok hh
    simp only [hplaced.blockLen, hh, bind, Except.bind, pure, Except.pure, Except.ok.injEq] at h
    obtain ⟨hle, hall⟩ := hmax hs start
    rw [h] at hle hall
    exact ⟨start, hs, rfl, hplaced, hle, hall⟩

/-! ## Packing -/

/-- The prologue of a packed container. -/
def prologue (b : Builder) : Prologue := ⟨⟨b.version, .ofNat b.images.length⟩, b.recordLen⟩

/-- The header block of a container with these records. -/
def block (b : Builder) (hs : List ImageHeader) : Bytes :=
  b.prologue.file.bytes ++ hs.flatMap (ImageHeader.padded b.recordLen.toNat)

/-- Each payload, and its position. -/
def payloads (b : Builder) (hs : List ImageHeader) : List (Nat × Bytes) :=
  (b.images.zip hs).map fun p => (p.2.offset.toNat, p.1.payload)

/-- The container with these records: the header block and the payloads, and zeros elsewhere. -/
def packed (b : Builder) (hs : List ImageHeader) (total : Nat) : Bytes :=
  ((Bytes.zeros total).overlay 0 (b.block hs)).overlays (b.payloads hs)

theorem Placed.length_block (h : b.Placed start hs) : (b.block hs).length = start := by
  obtain ⟨_, hrecord, hlen⟩ := blockLen_eq_ok h.blockLen
  rw [block, List.length_append, Bytes.length_flatMap_of (ImageHeader.length_padded hrecord),
    ← h.describes.length_eq, hlen]
  rfl

theorem Placed.stop_of_zip (h : b.Placed start hs) :
    ∀ p ∈ b.images.zip hs, p.2.offset.toNat + p.1.payload.length = p.2.stop := by
  intro p hp
  rw [← ((List.forall₂_iff_zip.1 h.describes).2 hp).imageLen]
  rfl

/-- The buffer that the payloads go to. -/
theorem Fits.length_framed (h : b.Fits start hs total) :
    ((Bytes.zeros total).overlay 0 (b.block hs)).length = total := by
  have hfits : 0 + (b.block hs).length ≤ (Bytes.zeros total).length := by
    rw [h.length_block, Bytes.length_zeros, Nat.zero_add]
    exact h.start_le
  rw [Bytes.length_overlay hfits, Bytes.length_zeros]

theorem Fits.zip_within (h : b.Fits start hs total) : ∀ p ∈ b.images.zip hs,
    p.2.offset.toNat + p.1.payload.length ≤
      ((Bytes.zeros total).overlay 0 (b.block hs)).length := by
  intro p hp
  rw [h.length_framed, h.stop_of_zip p hp]
  exact h.stop_le _ (List.of_mem_zip hp).2

theorem Fits.payloads_within (h : b.Fits start hs total) : ∀ p ∈ b.payloads hs,
    p.1 + p.2.length ≤ ((Bytes.zeros total).overlay 0 (b.block hs)).length := by
  intro p hp
  obtain ⟨q, hq, rfl⟩ := List.mem_map.1 hp
  exact h.zip_within q hq

/-- The container is emitted into a buffer of its length, whatever this held. -/
theorem Fits.emit_ok (h : b.Fits start hs total) {part : Bytes} (hpart : part.length = total) :
    (do
      modify fun out => List.replicate out.length 0
      b.prologue.file.emit
      emitRecords b.recordLen.toNat FileHeader.length hs
      emitPayloads (b.images.zip hs) : Emit Unit) part = .ok () (b.packed hs total) := by
  obtain ⟨_, hrecord, hlen⟩ := blockLen_eq_ok h.blockLen
  rw [h.describes.length_eq] at hlen
  have hstart := h.start_le
  have hzeros := Bytes.length_zeros total
  have hfile : b.prologue.file.emit (Bytes.zeros total) =
      .ok () ((Bytes.zeros total).overlay 0 b.prologue.file.bytes) :=
    b.prologue.file.emit_ok (by omega)
  have hfileLen : ((Bytes.zeros total).overlay 0 b.prologue.file.bytes).length = total := by
    rw [Bytes.length_overlay, hzeros]
    rw [FileHeader.length_bytes, hzeros]
    omega
  have hrecords : emitRecords b.recordLen.toNat FileHeader.length hs
      ((Bytes.zeros total).overlay 0 b.prologue.file.bytes) =
      .ok () ((Bytes.zeros total).overlay 0 (b.block hs)) := by
    rw [emitRecords_ok hrecord (by omega)]
    -- The records come right behind the file header.
    exact congrArg _ (Bytes.overlay_overlay (Nat.zero_le _) _ _)
  refine bind_eq_ok.2 ⟨(), Bytes.zeros total, ?_, bind_eq_ok.2 ⟨(), _, hfile,
    bind_eq_ok.2 ⟨(), _, hrecords, emitPayloads_ok h.zip_within⟩⟩⟩
  rw [← hpart]
  rfl

/-- Packing writes the builder's records and payloads. -/
theorem build_packs (h : b.build out = .ok total out') : ∃ start hs, b.headers = .ok hs ∧
    b.Fits start hs total ∧ total ≤ out.length ∧ out' = out.overlay 0 (b.packed hs total) := by
  unfold build at h
  obtain ⟨needed, out₁, hlen, hroom⟩ := bind_eq_ok.1 h
  obtain ⟨htotal, rfl⟩ := ofExcept_eq_ok.1 hlen
  obtain ⟨start, hs, hheaders, hfits⟩ := totalLen_eq_ok htotal
  obtain ⟨out₂, out₃, hget, hroom⟩ := bind_eq_ok.1 hroom
  cases hget
  split at hroom
  · cases hroom
  · rename_i hsize
    obtain ⟨hs', out₄, hplacing, hrest⟩ := bind_eq_ok.1 hroom
    obtain ⟨hsame, rfl⟩ := ofExcept_eq_ok.1 hplacing
    cases hheaders.symm.trans hsame
    obtain ⟨_, out₅, hpacked, hdone⟩ := bind_eq_ok.1 hrest
    have hpart : ((out₄.drop 0).take (needed - 0)).length = needed := by
      rw [List.drop_zero, Nat.sub_zero, List.length_take]
      omega
    cases (Emit.within_ok (hfits.emit_ok hpart)).symm.trans hpacked
    cases hdone
    exact ⟨start, hs, hheaders, hfits, by omega, rfl⟩

/-- Packing fills the front of the buffer, and leaves the rest of it. -/
theorem build_eq_ok (h : b.build out = .ok total out') : ∃ start hs, b.Fits start hs total ∧
    total ≤ out.length ∧ out' = out.overlay 0 (b.packed hs total) :=
  have ⟨start, hs, _, hpacked⟩ := build_packs h
  ⟨start, hs, hpacked⟩

/-! ## What a packed container holds -/

theorem Fits.length_packed (h : b.Fits start hs total) : (b.packed hs total).length = total := by
  rw [packed, Bytes.length_overlays h.payloads_within, h.length_framed]

/-- The header block leads the container. -/
theorem Fits.take_packed (h : b.Fits start hs total) :
    (b.packed hs total).take start = b.block hs := by
  have hmisses : ∀ p ∈ b.payloads hs, Bytes.Misses 0 start p := by
    intro p hp
    obtain ⟨q, hq, rfl⟩ := List.mem_map.1 hp
    refine .inl ?_
    rw [Nat.zero_add]
    exact (h.behind _ (List.of_mem_zip hq).2).1
  have hframe := Bytes.overlays_frame h.payloads_within hmisses
  have hblock := Bytes.take_overlay_zero (Bytes.zeros total) (b.block hs)
  rw [h.length_block] at hblock
  rw [List.drop_zero, List.drop_zero, hblock] at hframe
  exact hframe

/-- Every payload is where its record says. -/
theorem Fits.payload_packed (h : b.Fits start hs total) : ∀ p ∈ b.images.zip hs,
    ((b.packed hs total).drop p.2.offset.toNat).take p.1.payload.length = p.1.payload := by
  have hrecords : (b.images.zip hs).map Prod.snd = hs :=
    List.map_snd_zip (Nat.le_of_eq h.describes.length_eq.symm)
  have hzip : (b.images.zip hs).Pairwise fun p q => p.2.Apart q.2 := by
    have hapart := h.apart
    rw [← hrecords] at hapart
    exact List.pairwise_map.1 hapart
  have hapart : (b.payloads hs).Pairwise fun p q => Bytes.Misses p.1 p.2.length q := by
    refine List.pairwise_map.2 (hzip.imp_of_mem fun {p q} hp hq hpq => ?_)
    unfold Bytes.Misses
    dsimp only
    rw [h.stop_of_zip p hp, h.stop_of_zip q hq]
    exact hpq
  intro p hp
  exact Bytes.overlays_read h.payloads_within hapart _ (List.mem_map_of_mem hp)

end Builder

/-! ## Reading it back -/

theorem findRev?_cons {α : Type} (p : α → Bool) (a : α) (as : List α) :
    (a :: as).findRev? p = (as.findRev? p).or (if p a then some a else none) := by
  change (match as.findRev? p with
    | some b => some b
    | none => if p a then some a else none) = _
  cases as.findRev? p <;> rfl

theorem rel_some_left {α β : Type} {R : α → β → Prop} {a : α} {o : Option β}
    (h : Option.Rel R (some a) o) : ∃ b, o = some b ∧ R a b := by
  cases h with
  | some hr => exact ⟨_, rfl, hr⟩

theorem rel_some_right {α β : Type} {R : α → β → Prop} {b : β} {o : Option α}
    (h : Option.Rel R o (some b)) : ∃ a, o = some a ∧ R a b := by
  cases h with
  | some hr => exact ⟨_, rfl, hr⟩

/-- Lists that correspond, searched for what corresponds. -/
theorem findRev?_rel {α β : Type} {R : α → β → Prop} {p : α → Bool} {q : β → Bool} {as : List α}
    {bs : List β} (h : List.Forall₂ R as bs) (hpq : ∀ a b, R a b → p a = q b) :
    Option.Rel R (as.findRev? p) (bs.findRev? q) := by
  induction h with
  | nil => exact .none
  | @cons a b as bs hab _ ih =>
    rw [findRev?_cons, findRev?_cons, hpq a b hab]
    generalize as.findRev? p = found, bs.findRev? q = found' at ih
    cases ih with
    | some hr => exact .some hr
    | none =>
      cases q b
      · exact .none
      · exact .some hab

namespace TargetHeader

/-- Of the records that count, the last is found. -/
theorem foldl_see (wanted : Tag) (hs : List ImageHeader) (f : Found) :
    hs.foldl (Found.see wanted) f =
      { primary := (hs.findRev? (·.tag = wanted)).or f.primary
        secondary :=
          (hs.findRev? fun h => h.tag ≠ wanted && h.tag.isSecondary).or f.secondary } := by
  induction hs generalizing f with
  | nil => rfl
  | cons h hs ih =>
    rw [List.foldl_cons, ih, findRev?_cons, findRev?_cons, Option.or_assoc, Option.or_assoc]
    unfold Found.see
    by_cases hw : h.tag = wanted
    · simp [hw]
    · by_cases hsec : h.tag.isSecondary = true <;> simp [hw, hsec]

theorem scan_decoded {wanted : Tag} {records : List Bytes} {hs : List ImageHeader}
    (h : List.Forall₂ (fun record header => ImageHeader.decode record = .ok header) records hs)
    (f : Found) : scan wanted records f = .ok (hs.foldl (Found.see wanted) f) := by
  induction h generalizing f with
  | nil => rfl
  | cons hrecord _ ih =>
    rw [scan, hrecord, List.foldl_cons, ← ih]
    rfl

end TargetHeader

namespace Builder

variable {b : Builder} {hs : List ImageHeader} {start total : Nat}

theorem headerCount_prologue (b : Builder) :
    b.prologue.file.headerCount.toNat = b.images.length :=
  UInt32.toNat_ofNat_of_lt' (Nat.lt_of_le_of_lt b.length_images (by decide))

theorem Placed.blockLen_prologue (h : b.Placed start hs) : b.prologue.blockLen = .ok start := by
  rw [Prologue.blockLen, b.headerCount_prologue]
  exact h.blockLen

theorem Placed.length_le_start (h : b.Placed start hs) : Prologue.length ≤ start :=
  (Prologue.blockLen_eq_ok h.blockLen_prologue).1

theorem Placed.decode_block (h : b.Placed start hs) :
    Prologue.decode (b.block hs) = .ok b.prologue := by
  obtain ⟨hne, _, _⟩ := blockLen_eq_ok h.blockLen
  have hversion : Word.at? (b.block hs) 0 = some b.version := Word.at?_of_drop rfl
  have hheaderCount : Word.at? (b.block hs) 4 = some (.ofNat b.images.length) :=
    Word.at?_of_drop rfl
  have hrecordLen : Word.at? (b.block hs) 12 = some b.recordLen := by
    have hdescribes := h.describes
    unfold block
    cases hs with
    | nil => exact absurd (List.forall₂_nil_right_iff.1 hdescribes) hne
    | cons header hs =>
      obtain ⟨_, _, hfirst, _, _⟩ := List.forall₂_cons_right_iff.1 hdescribes
      rw [← hfirst.headerLen]
      exact Word.at?_of_drop rfl
  have hlong : ¬(b.block hs).length < Prologue.length := by
    rw [h.length_block]
    exact Nat.not_lt.2 h.length_le_start
  have hfile : FileHeader.decode (b.block hs) = .ok b.prologue.file := by
    rw [FileHeader.decode, hversion, hheaderCount]
    rfl
  have hdeclared : Prologue.blockLen ⟨b.prologue.file, b.recordLen⟩ = .ok start :=
    h.blockLen_prologue
  simp only [Prologue.decode, if_neg hlong, hfile, hrecordLen, hdeclared, bind, Except.bind]
  rfl

/-- A container begins with a whole prologue. -/
theorem Fits.length_le_packed (h : b.Fits start hs total) :
    Prologue.length ≤ (b.packed hs total).length := by
  rw [h.length_packed]
  exact Nat.le_trans h.length_le_start h.start_le

theorem Fits.declared_packed (h : b.Fits start hs total) :
    Prologue.declared (b.packed hs total) = .ok start := by
  rw [← Prologue.declared_take h.length_le_start h.length_le_packed, h.take_packed,
    Prologue.declared, h.decode_block]
  exact h.blockLen_prologue

/-- Whoever reads a packed container finds the records that it was packed with. -/
theorem Fits.parse_packed (h : b.Fits start hs total) (wanted : Tag) :
    TargetHeader.parse (b.packed hs total) wanted =
      match hs.findRev? (·.tag = wanted) with
      | none => .error .noMatchingImage
      | some primary => .ok {
          file := b.prologue.file
          recordLen := b.recordLen
          primary
          secondary := hs.findRev? fun h => h.tag ≠ wanted && h.tag.isSecondary } := by
  obtain ⟨_, hrecord, _⟩ := blockLen_eq_ok h.blockLen
  rw [← TargetHeader.parse_take h.declared_packed h.length_le_packed, h.take_packed]
  have hrecords : Bytes.pieces b.recordLen.toNat b.prologue.file.headerCount.toNat
      ((b.block hs).drop FileHeader.length) =
      hs.map (ImageHeader.padded b.recordLen.toNat) := by
    rw [b.headerCount_prologue, h.describes.length_eq, block,
      List.drop_left' (FileHeader.length_bytes _),
      Bytes.pieces_flatMap (ImageHeader.length_padded hrecord)]
  have hdecode : List.Forall₂ (fun record header => ImageHeader.decode record = .ok header)
      (hs.map (ImageHeader.padded b.recordLen.toNat)) hs :=
    List.forall₂_map_left_iff.2
      (List.forall₂_same.2 fun header _ => header.decode_padded b.recordLen.toNat)
  have hfits : ¬(b.block hs).length < start := by
    rw [h.length_block]
    exact Nat.lt_irrefl _
  have hdeclared := h.blockLen_prologue
  have hrecordLen : b.prologue.recordLen = b.recordLen := rfl
  simp only [TargetHeader.parse, h.decode_block, hdeclared, hrecordLen, hrecords, if_neg hfits,
    TargetHeader.scan_decoded hdecode, TargetHeader.foldl_see, Option.or_none, bind, Except.bind,
    pure, Except.pure]
  cases hs.findRev? (·.tag = wanted) <;> rfl

theorem Fits.locates (h : b.Fits start hs total) : List.Forall₂ (fun image header => header ∈ hs ∧
      ImageHeader.Locates (b.packed hs total) b.recordLen image header) b.images hs := by
  obtain ⟨hlen, hdescribes⟩ := List.forall₂_iff_zip.1 h.describes
  refine List.forall₂_iff_zip.2 ⟨hlen, fun {image header} hp => ?_⟩
  have hrecord := hdescribes hp
  refine ⟨(List.of_mem_zip hp).2, hrecord, ?_⟩
  rw [hrecord.imageLen]
  exact h.payload_packed _ hp

/-- The image for a tag: of those that have it, the last. -/
def imageFor (b : Builder) (tag : Tag) : Option ImageSpec := b.images.findRev? (·.tag = tag)

/-- The image for neither bank: again the last. -/
def secondaryImage (b : Builder) : Option ImageSpec := b.images.findRev? (·.tag.isSecondary)

/-- Whoever looks for the image of a bank finds it, and the secondary image beside it. -/
theorem Fits.finds (h : b.Fits start hs total) {tag : Tag} (hbank : tag.isSecondary = false)
    {image : ImageSpec} (himage : b.imageFor tag = some image) :
    ∃ t, TargetHeader.parse (b.packed hs total) tag = .ok t ∧ t.primary ∈ hs ∧
      ImageHeader.Locates (b.packed hs total) b.recordLen image t.primary ∧
      Option.Rel (fun image header => header ∈ hs ∧ t.primary.Apart header ∧
        ImageHeader.Locates (b.packed hs total) b.recordLen image header)
        b.secondaryImage t.secondary := by
  have hlocates := h.locates
  have hprimary := findRev?_rel hlocates (p := (·.tag = tag)) (q := (·.tag = tag))
    fun image header hr => by rw [hr.2.tag]
  have hsecondary := findRev?_rel hlocates (p := (·.tag.isSecondary))
    (q := fun header => header.tag ≠ tag && header.tag.isSecondary) fun image header hr => by
      rw [hr.2.tag]
      by_cases ht : image.tag = tag
      · simp [ht, hbank]
      · simp [ht]
  have hparse := h.parse_packed tag
  rw [show b.images.findRev? (·.tag = tag) = some image from himage] at hprimary
  generalize hfound : hs.findRev? (·.tag = tag) = found at hprimary hparse
  cases hprimary with
  | @some _ primary hr =>
    refine ⟨_, hparse, hr.1, hr.2, ?_⟩
    change Option.Rel _ (b.images.findRev? (·.tag.isSecondary))
      (hs.findRev? fun header => header.tag ≠ tag && header.tag.isSecondary)
    generalize b.images.findRev? (·.tag.isSecondary) = image' at hsecondary ⊢
    generalize hother : hs.findRev? (fun header => header.tag ≠ tag && header.tag.isSecondary) =
      other at hsecondary ⊢
    cases hsecondary with
    | none => exact .none
    | @some _ header hr' =>
      -- Two records with different tags are two records.
      have hne : primary ≠ header := by
        rintro rfl
        rw [List.findRev?_eq_find?_reverse] at hfound hother
        have htag := List.find?_some hfound
        have htag' := List.find?_some hother
        simp_all
      exact .some ⟨hr'.1, h.apart.forall hr.1 hr'.1 hne, hr'.2⟩

end Builder
end DualBank
