import DualBank.Proofs.PackedLayout

/-! The records of a container and the file info, there and back. A record is a fixed number of
bytes at the front of a buffer. Writing a record and reading it gives the record, over whatever the
buffer held. Reading the front of a buffer and writing it again gives the same front. A buffer that
is too short for the record is refused by both. -/
namespace DualBank

/-- A record of `length` bytes at the front of a buffer. The rest of the buffer becomes what `rest`
makes of it when a record is written. -/
structure RoundTrips {α : Type} (length : Nat) (emit : α → Emit Unit)
    (decode : Bytes → Except ContainerError α) (rest : Bytes → Bytes) : Prop where
  read_written : ∀ v (out : Bytes), length ≤ out.length → ∃ out', emit v out = .ok () out' ∧
    decode out' = .ok v ∧ out'.length = out.length ∧ out'.drop length = rest (out.drop length)
  write_refused : ∀ v (out : Bytes), out.length < length →
    ∃ out', emit v out = .error (.outputTooSmall out.length) out'
  written_read : ∀ b : Bytes, length ≤ b.length → ∃ v, decode b = .ok v ∧
    ∀ out : Bytes, length ≤ out.length →
      ∃ out', emit v out = .ok () out' ∧ out'.take length = b.take length
  read_refused : ∀ b : Bytes, b.length < length →
    decode b = .error (.headerIncomplete length b.length)

/-- The bytes of a record, as its reader and its writer have them. -/
structure RecordLayout {α : Type} (length : Nat) (bytes : α → Bytes) (emit : α → Emit Unit)
    (decode : Bytes → Except ContainerError α) (rest : Bytes → Bytes) : Prop where
  length_bytes : ∀ v, (bytes v).length = length
  length_rest : ∀ b, (rest b).length = b.length
  emit_ok : ∀ v (out : Bytes), length ≤ out.length →
    emit v out = .ok () (bytes v ++ rest (out.drop length))
  emit_short : ∀ v (out : Bytes), out.length < length →
    ∃ out', emit v out = .error (.outputTooSmall out.length) out'
  decode_append : ∀ v b, decode (bytes v ++ b) = .ok v
  exists_bytes : ∀ b : Bytes, length ≤ b.length → ∃ v, bytes v = b.take length
  decode_short : ∀ b : Bytes, b.length < length →
    decode b = .error (.headerIncomplete length b.length)

theorem RecordLayout.roundTrips {α : Type} {length : Nat} {bytes : α → Bytes} {emit : α → Emit Unit}
    {decode : Bytes → Except ContainerError α} {rest : Bytes → Bytes}
    (h : RecordLayout length bytes emit decode rest) : RoundTrips length emit decode rest where
  read_written v out hlen := by
    refine ⟨_, h.emit_ok v out hlen, h.decode_append v _, ?_, List.drop_left' (h.length_bytes v)⟩
    rw [List.length_append, h.length_bytes, h.length_rest, List.length_drop]
    omega
  write_refused := h.emit_short
  written_read b hlen := by
    obtain ⟨v, hv⟩ := h.exists_bytes b hlen
    refine ⟨v, ?_, fun out hout => ⟨_, h.emit_ok v out hout, ?_⟩⟩
    · rw [← List.take_append_drop length b, ← hv]
      exact h.decode_append v _
    · rw [List.take_left' (h.length_bytes v), hv]
  read_refused := h.decode_short

/-- The bytes of four places are those of a word. -/
theorem Word.exists_toBytes {b : Bytes} {pos : Nat} (h : pos + 4 ≤ b.length) :
    ∃ w : Word, w.toBytes = (b.drop pos).take 4 := by
  obtain ⟨w, hw⟩ := Bytes.at?_exists h
  exact ⟨w, (Word.at?_eq_some.1 hw).1⟩

theorem Word.at?_eq_none {b : Bytes} {pos : Nat} (h : b.length < pos + 4) :
    Word.at? b pos = none := by
  cases hw : Word.at? b pos with
  | none => rfl
  | some w => exact absurd (Word.le_length_of_at? hw) (by omega)

/-- Of pieces that do not all fit, one is refused. -/
theorem Emit.puts_short {k : Emit Unit} {xs : List Bytes} {pos : Nat} {out : Bytes}
    (hpos : pos ≤ out.length) (h : out.length < pos + xs.flatten.length) :
    ∃ out', Emit.puts k pos xs out = .error (.outputTooSmall out.length) out' := by
  induction xs generalizing pos out with
  | nil => exact absurd h (Nat.not_lt.2 hpos)
  | cons x xs ih =>
    rw [List.flatten_cons, List.length_append] at h
    by_cases hx : pos + x.length ≤ out.length
    · have hlen : (out.overlay pos x).length = out.length := Bytes.length_overlay hx
      rw [puts, put_bind hx, ← hlen]
      exact ih (by omega) (by omega)
    · exact ⟨out, by simp only [puts, bind, EStateM.bind, put, if_neg hx]⟩

namespace FileHeader

theorem emit_eq_puts (h : FileHeader) :
    h.emit = Emit.puts (pure ()) 0 [h.version.toBytes, h.headerCount.toBytes] := by
  rw [emit, ← bind_pure (Emit.put 4 _)]
  rfl

theorem layout : RecordLayout 8 bytes emit decode id where
  length_bytes _ := rfl
  length_rest _ := rfl
  emit_ok h out hlen := by
    rw [h.emit_ok hlen, Bytes.overlay_zero]
    rfl
  emit_short h out hlen := by
    rw [h.emit_eq_puts]
    exact Emit.puts_short (Nat.zero_le _) hlen
  decode_append h b := by
    have hversion : Word.at? (h.bytes ++ b) 0 = some h.version := Word.at?_of_drop rfl
    have hcount : Word.at? (h.bytes ++ b) 4 = some h.headerCount := Word.at?_of_drop rfl
    rw [decode, hversion, hcount]
  exists_bytes b hlen := by
    have hfirst : 0 + 4 ≤ b.length := by omega
    have hsecond : 4 + 4 ≤ b.length := hlen
    obtain ⟨version, hversion⟩ := Word.exists_toBytes hfirst
    obtain ⟨headerCount, hcount⟩ := Word.exists_toBytes hsecond
    refine ⟨⟨version, headerCount⟩, ?_⟩
    rw [bytes, hversion, hcount, List.drop_zero, ← List.take_add]
  decode_short b hlen := by
    have hlast : b.length < 4 + 4 := hlen
    rw [decode, Word.at?_eq_none hlast]
    cases Word.at? b 0 <;> rfl

end FileHeader

namespace ImageHeader

/-- A record at the front stands there. -/
theorem standsAt_append (h : ImageHeader) (b : Bytes) : h.StandsAt (h.bytes ++ b) 0 where
  tag := rfl
  headerLen := Word.at?_of_drop rfl
  checksum := Word.at?_of_drop rfl
  imageLen := Word.at?_of_drop rfl
  offset := Word.at?_of_drop rfl
  flashAddress := Word.at?_of_drop rfl

theorem emit_eq_puts (h : ImageHeader) : h.emit = Emit.puts
    (modify fun out => out.take length ++ List.replicate (out.length - length) 0) 0
    [h.tag.bytes, h.headerLen.toBytes, h.checksum.toBytes, h.imageLen.toBytes, h.offset.toBytes,
      h.flashAddress.toBytes] := rfl

theorem StandsAt.bytes_eq {b : Bytes} {h : ImageHeader} (hs : h.StandsAt b 0) :
    h.bytes = b.take 24 := by
  have hword : ∀ {pos : Nat} {w : Word}, Word.at? b (0 + pos) = some w →
      b.take pos ++ w.toBytes = b.take (pos + 4) := by
    intro pos w hw
    rw [(Word.at?_eq_some.1 hw).1, Nat.zero_add, ← List.take_add]
  have htag : h.tag.bytes = b.take 4 := hs.tag.symm
  rw [bytes, htag, hword hs.headerLen, hword hs.checksum, hword hs.imageLen, hword hs.offset,
    hword hs.flashAddress]

theorem layout : RecordLayout 24 bytes emit decode fun b => Bytes.zeros b.length where
  length_bytes _ := rfl
  length_rest _ := Bytes.length_zeros _
  emit_ok h out hlen := by
    rw [h.emit_ok hlen, padded, List.length_drop]
    rfl
  emit_short h out hlen := by
    rw [h.emit_eq_puts]
    exact Emit.puts_short (Nat.zero_le _) hlen
  decode_append h b := (h.standsAt_append b).decode
  exists_bytes b hlen := by
    have hfits : 0 + length ≤ b.length := by rwa [Nat.zero_add]
    obtain ⟨h, hs⟩ := exists_standsAt hfits
    exact ⟨h, hs.bytes_eq⟩
  decode_short b hlen := by
    -- The last word would be behind the end.
    have hlast : b.length < 20 + 4 := hlen
    cases hd : decode? b with
    | none => rw [decode, hd]; rfl
    | some h => simp [decode?, Word.at?_eq_none hlast] at hd

end ImageHeader

namespace FileInfo

theorem decode_encode (i : FileInfo) : decode i.encode = i := by
  have hchecksum : Word.at? i.encode 0 = some i.checksum := Word.at?_of_drop rfl
  have hreserved : Word.at? i.encode 4 = some i.reserved := Word.at?_of_drop rfl
  have htail : i.encode.drop 8 = i.size.toBytes ++ [] := (List.append_nil _).symm
  have hsize : Word.at? i.encode 8 = some i.size := Word.at?_of_drop htail
  rw [decode, hchecksum, hreserved, hsize]
  rfl

theorem encode_decode {b : Bytes} (h : b.length = 12) : (decode b).encode = b := by
  have hword : ∀ pos, pos + 4 ≤ 12 →
      ((Word.at? b pos).getD 0).toBytes = (b.drop pos).take 4 := by
    intro pos hpos
    have hfits : pos + 4 ≤ b.length := by omega
    obtain ⟨w, hw⟩ := Bytes.at?_exists hfits
    rw [hw]
    exact (Word.at?_eq_some.1 hw).1
  calc (decode b).encode = (b.drop 0).take 4 ++ (b.drop 4).take 4 ++ (b.drop 8).take 4 := by
        rw [encode, decode, hword 0 (by decide), hword 4 (by decide), hword 8 (by decide)]
    _ = b.take 12 := by rw [List.drop_zero, ← List.take_add, ← List.take_add]
    _ = b := List.take_of_length_le (Nat.le_of_eq h)

end FileInfo

/-- Every record comes back as it was, and so does every byte of one. The record of an image leaves
zeros behind it, the file header leaves what was there. -/
theorem records_round_trip :
    RoundTrips 8 FileHeader.emit FileHeader.decode id ∧
    RoundTrips 24 ImageHeader.emit ImageHeader.decode (fun b => Bytes.zeros b.length) ∧
    (∀ i : FileInfo, i.encode.length = 12 ∧ FileInfo.decode i.encode = i) ∧
    ∀ b : Bytes, b.length = 12 → (FileInfo.decode b).encode = b :=
  ⟨FileHeader.layout.roundTrips, ImageHeader.layout.roundTrips,
    fun i => ⟨rfl, i.decode_encode⟩, fun _ => FileInfo.encode_decode⟩

end DualBank
