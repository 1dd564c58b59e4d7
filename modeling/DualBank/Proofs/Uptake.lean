import DualBank.Proofs.Layout
import DualBank.Proofs.Splitting
import DualBank.Transfer

/-! An image on its way, against the whole stream. However the stream is cut into chunks, what was
taken in after `q` bytes of it is decided by `q`: the signature so far and the payload so far are
the bytes of the stream at their places. -/
namespace DualBank

namespace Bytes

/-- A stretch of a chunk is a stretch of the stream. -/
theorem stretch (C : Bytes) {q len start n : Nat} (h : start + n ≤ len) :
    ((((C.drop q).take len).drop start).take n) = (C.drop (q + start)).take n := by
  rw [List.drop_take, List.take_take, List.drop_drop, Nat.min_eq_left (by omega)]

theorem take_drop_append (C : Bytes) (start m n : Nat) :
    (C.drop start).take m ++ (C.drop (start + m)).take n = (C.drop start).take (m + n) := by
  rw [List.take_add, List.drop_drop]

end Bytes

namespace Placement

/-- Stream position of the first byte after the signature. -/
def payloadStart (p : Placement) : Nat := p.streamOffset.toNat + p.signatureLen.toNat

/-- The signature bytes in the stream. -/
def signatureOf (p : Placement) (C : Bytes) : Bytes :=
  (C.drop p.streamOffset.toNat).take p.signatureLen.toNat

/-- The payload bytes in the stream. -/
def payloadOf (p : Placement) (C : Bytes) : Bytes :=
  (C.drop p.payloadStart).take p.payloadLen.toNat

/-- The payload bytes among the first `q` bytes of the stream. -/
def payloadUpTo (p : Placement) (C : Bytes) (q : Nat) : Bytes :=
  (C.drop p.payloadStart).take (q - p.payloadStart)

end Placement

namespace Uptake

variable {u : Uptake} {p : Placement} {C : Bytes}

/-- What an uptake has of an image, as far as its position tells. The bytes are left out. -/
structure Placed (u : Uptake) (p : Placement) : Prop where
  streamOffset : u.progress.streamOffset = p.streamOffset.toNat
  signatureLen : u.progress.signatureLen = p.signatureLen.toNat
  payloadLen : u.progress.payloadLen = p.payloadLen.toNat
  signature : u.progress.signature.length =
    min p.signatureLen.toNat (u.position - p.streamOffset.toNat)
  written : u.progress.written = u.position - p.payloadStart
  position_le_stop : u.position ≤ p.streamStop

/-- The window does not matter. -/
theorem Placed.window (h : u.Placed p) (w : Window) : Placed { u with window := w } p where
  streamOffset := h.streamOffset
  signatureLen := h.signatureLen
  payloadLen := h.payloadLen
  signature := h.signature
  written := h.written
  position_le_stop := h.position_le_stop

theorem placed_start (hf : p.Fits) {q : Nat} (hq : q ≤ p.streamOffset.toNat) (w : Window) :
    Placed ⟨q, w, .start p⟩ p where
  streamOffset := rfl
  signatureLen := Nat.min_eq_left hf.signature_le
  payloadLen := rfl
  signature := by
    rw [Nat.sub_eq_zero_of_le hq, Nat.min_zero]
    rfl
  written := by
    simp only [Placement.payloadStart, Progress.start]
    omega
  position_le_stop := by
    simp only [Placement.streamStop]
    omega

/-- The three places that are still to come are those of the image in the stream. -/
theorem Placed.leads (h : u.Placed p) :
    u.progress.lead u.position = p.streamOffset.toNat - u.position ∧
    u.progress.leadSigned u.position = p.payloadStart - u.position ∧
    u.progress.need u.position = p.streamStop - u.position := by
  have hstop := h.position_le_stop
  have hnext : u.progress.next =
      p.streamOffset.toNat + min p.signatureLen.toNat (u.position - p.streamOffset.toNat) +
        (u.position - p.payloadStart) := by
    rw [Progress.next, h.streamOffset, h.signature, h.written]
  simp only [Progress.leadSigned, Progress.lead, Progress.need, hnext, h.signature, h.signatureLen,
    h.payloadLen, h.written]
  simp only [Placement.payloadStart, Placement.streamStop, Placement.span] at hstop ⊢
  clear hnext
  refine ⟨?_, ?_, ?_⟩ <;> omega

/-- What a chunk is cut into. -/
theorem Placed.cut (h : u.Placed p) (len : Nat) :
    let c := u.progress.cut u.position len
    c.skip = min (p.streamOffset.toNat - u.position) len ∧
    c.stop = min len (p.streamStop - u.position) ∧
    c.start = min len (p.payloadStart - u.position) ∧ c.signature = c.start - c.skip := by
  obtain ⟨hskip, hstart, hstop, hsig⟩ := u.progress.cut_eq u.position len
  obtain ⟨hlead, hsigned, hneed⟩ := h.leads
  rw [hlead] at hskip
  rw [hsigned] at hstart
  rw [hneed] at hstop
  exact ⟨hskip, hstop.trans (Nat.min_comm ..), hstart.trans (Nat.min_comm ..), hsig⟩

theorem Placed.isComplete (h : u.Placed p) :
    u.progress.isComplete = true ↔ p.span = 0 ∨ u.position = p.streamStop := by
  have hs := h.signature
  have hstop := h.position_le_stop
  simp only [Placement.streamStop, Placement.span] at hstop ⊢
  simp only [Progress.isComplete, Bool.and_eq_true, beq_iff_eq, hs, h.signatureLen, h.payloadLen,
    h.written, Placement.payloadStart]
  omega

/-- A chunk is used up as far as the image goes. -/
theorem Placed.position_feed (h : u.Placed p) (chunk : Bytes) :
    (u.feed chunk).position = u.position + min chunk.length (p.streamStop - u.position) := by
  simp only [Uptake.feed, Cut.consumed, (h.cut chunk.length).2.1]

theorem Placed.feed (h : u.Placed p) (chunk : Bytes) : (u.feed chunk).Placed p := by
  obtain ⟨hskip, hstop, hstart, hsig⟩ := h.cut chunk.length
  have hle := h.position_le_stop
  have hpos := h.position_feed chunk
  have hwritten := h.written
  have hlength := h.signature
  refine ⟨h.streamOffset, h.signatureLen, h.payloadLen, ?_, ?_, ?_⟩ <;> rw [hpos]
  · simp only [Uptake.feed, Progress.feed, List.length_append, List.length_take, List.length_drop,
      hlength, hskip, hsig, hstart]
    clear hskip hstop hstart hsig hpos hwritten hlength
    simp only [Placement.payloadStart, Placement.streamStop, Placement.span] at hle ⊢
    -- The chunk ends before the image, or it reaches it.
    rcases Nat.le_total chunk.length (p.streamOffset.toNat - u.position) with hc | hc
    · rw [Nat.min_eq_right hc]
      omega
    · rw [Nat.min_eq_left hc]
      omega
  · simp only [Uptake.feed, Progress.feed, hstart, hstop, hwritten]
    clear hskip hstop hstart hsig hpos hwritten hlength
    simp only [Placement.payloadStart, Placement.streamStop, Placement.span] at hle ⊢
    omega
  · omega

/-- The uptake is what the image has of the stream up to its position. -/
structure Sound (u : Uptake) (p : Placement) (C : Bytes) : Prop where
  streamOffset : u.progress.streamOffset = p.streamOffset.toNat
  signatureLen : u.progress.signatureLen = p.signatureLen.toNat
  payloadLen : u.progress.payloadLen = p.payloadLen.toNat
  signature : u.progress.signature = (C.drop p.streamOffset.toNat).take
    (min p.signatureLen.toNat (u.position - p.streamOffset.toNat))
  written : u.progress.written = u.position - p.payloadStart
  position_le : u.position ≤ C.length
  position_le_stop : u.position ≤ p.streamStop

theorem sound_start (hf : p.Fits) {q : Nat} (hq : q ≤ p.streamOffset.toNat) (hC : q ≤ C.length)
    (w : Window) : Sound ⟨q, w, .start p⟩ p C where
  streamOffset := rfl
  signatureLen := (placed_start hf hq w).signatureLen
  payloadLen := rfl
  signature := by
    rw [Nat.sub_eq_zero_of_le hq, Nat.min_zero, List.take_zero]
    rfl
  written := (placed_start hf hq w).written
  position_le := hC
  position_le_stop := (placed_start hf hq w).position_le_stop

/-- The window does not matter. -/
theorem Sound.window (h : u.Sound p C) (w : Window) : Sound { u with window := w } p C where
  streamOffset := h.streamOffset
  signatureLen := h.signatureLen
  payloadLen := h.payloadLen
  signature := h.signature
  written := h.written
  position_le := h.position_le
  position_le_stop := h.position_le_stop

theorem Sound.length_signature (h : u.Sound p C) : u.progress.signature.length =
    min p.signatureLen.toNat (u.position - p.streamOffset.toNat) := by
  have hC := h.position_le
  rw [h.signature, List.length_take, List.length_drop]
  omega

theorem Sound.placed (h : u.Sound p C) : u.Placed p where
  streamOffset := h.streamOffset
  signatureLen := h.signatureLen
  payloadLen := h.payloadLen
  signature := h.length_signature
  written := h.written
  position_le_stop := h.position_le_stop

/-- Taking in the next bytes of the stream. -/
theorem Sound.feed (h : u.Sound p C) {len : Nat} (hlen : u.position + len ≤ C.length) :
    (u.feed ((C.drop u.position).take len)).Sound p C ∧
      (u.feed ((C.drop u.position).take len)).position =
        u.position + min len (p.streamStop - u.position) := by
  have hl : ((C.drop u.position).take len).length = len := by
    rw [List.length_take, List.length_drop]
    omega
  obtain ⟨hskip, _, hstart, hsig⟩ := h.placed.cut len
  have hle := h.position_le_stop
  have hpos := h.placed.position_feed ((C.drop u.position).take len)
  have hfed := h.placed.feed ((C.drop u.position).take len)
  rw [hl] at hpos
  refine ⟨⟨h.streamOffset, h.signatureLen, h.payloadLen, ?_, hfed.written, ?_,
    hfed.position_le_stop⟩, hpos⟩
  · -- New signature bytes come only once the bytes before the image are skipped.
    rw [hpos]
    simp only [Uptake.feed, Progress.feed, hl, hskip, hsig, hstart, h.signature]
    clear hl hskip hstart hsig hpos hfed
    simp only [Placement.payloadStart, Placement.streamStop, Placement.span] at hle ⊢
    rw [Bytes.stretch C (by omega)]
    by_cases hnone : min len (p.streamOffset.toNat + p.signatureLen.toNat - u.position) -
        min (p.streamOffset.toNat - u.position) len = 0
    · rw [hnone, List.take_zero, List.append_nil]
      refine congrArg (fun n => (C.drop p.streamOffset.toNat).take n) ?_
      omega
    · have hat : u.position + min (p.streamOffset.toNat - u.position) len =
          p.streamOffset.toNat +
            min p.signatureLen.toNat (u.position - p.streamOffset.toNat) := by omega
      rw [hat, Bytes.take_drop_append]
      refine congrArg (fun n => (C.drop p.streamOffset.toNat).take n) ?_
      omega
  · rw [hpos]
    omega

/-- The payload bytes of a chunk come right after those before them. -/
theorem Sound.payloadUpTo_feed (h : u.Sound p C) (len : Nat) :
    let c := u.progress.cut u.position len
    (p.payloadUpTo C u.position).length = u.progress.written ∧
    p.payloadUpTo C (u.position + c.stop) = p.payloadUpTo C u.position ++
      (((C.drop u.position).take len).drop c.start).take (c.stop - c.start) := by
  have hC := h.position_le
  obtain ⟨_, hstop, hstart, _⟩ := h.placed.cut len
  have hle := h.position_le_stop
  have hlength : (p.payloadUpTo C u.position).length = u.progress.written := by
    rw [Placement.payloadUpTo, List.length_take, List.length_drop, h.written]
    omega
  refine ⟨hlength, ?_⟩
  rw [hstop, hstart, Bytes.stretch C (by omega)]
  simp only [Placement.payloadUpTo]
  by_cases hnone : min len (p.streamStop - u.position) - min len (p.payloadStart - u.position) = 0
  · rw [hnone, List.take_zero, List.append_nil]
    refine congrArg (fun n => (C.drop p.payloadStart).take n) ?_
    simp only [Placement.payloadStart, Placement.streamStop, Placement.span] at hle hnone ⊢
    omega
  · have hat : u.position + min len (p.payloadStart - u.position) =
        p.payloadStart + (u.position - p.payloadStart) := by omega
    rw [hat, Bytes.take_drop_append]
    refine congrArg (fun n => (C.drop p.payloadStart).take n) ?_
    simp only [Placement.payloadStart, Placement.streamStop, Placement.span] at hle hnone ⊢
    omega

/-- What a complete image has brought. -/
theorem Sound.complete (h : u.Sound p C) (hc : u.progress.isComplete = true) :
    u.progress.signature = p.signatureOf C ∧ u.progress.written = p.payloadLen.toNat ∧
      p.payloadUpTo C u.position = p.payloadOf C := by
  have hs := h.length_signature
  have hsig := h.signature
  have hw := h.written
  simp only [Progress.isComplete, Bool.and_eq_true, beq_iff_eq, h.signatureLen,
    h.payloadLen] at hc
  obtain ⟨hcs, hcw⟩ := hc
  rw [← hs, hcs] at hsig
  refine ⟨hsig, hcw, ?_⟩
  rw [Placement.payloadUpTo, Placement.payloadOf, ← hw, hcw]

/-- All that a stream has for an image that it does not finish. -/
theorem Sound.payloadUpTo_short (h : u.Sound p C) (hq : u.position = C.length) :
    p.payloadUpTo C u.position = p.payloadOf C := by
  have hle := h.position_le_stop
  have hlen : (C.drop p.payloadStart).length = C.length - p.payloadStart := List.length_drop
  simp only [Placement.payloadUpTo, Placement.payloadOf]
  rw [List.take_of_length_le (by omega), List.take_of_length_le]
  simp only [Placement.payloadStart, Placement.streamStop, Placement.span] at hle hlen ⊢
  omega

end Uptake
end DualBank
