import DualBank.Progress

/-! A chunk may be cut in two. An image that takes a chunk in, and one that takes in its two parts,
one after the other, come to the same progress and write the same bytes to the same places. The cut
may be anywhere: before the image, in its signature, in its payload or after it. -/
namespace DualBank

namespace Bytes

theorem slice?_of_le {b : Bytes} {start stop : Nat} (h : start ≤ stop) (hb : stop ≤ b.length) :
    b.slice? start stop = some ((b.drop start).take (stop - start)) :=
  if_pos ⟨h, hb⟩

/-- A stretch whose ends are held back to the end of the string is the stretch itself. -/
theorem stretch_min (b : Bytes) (start stop : Nat) :
    (b.drop (min start b.length)).take (min stop b.length - min start b.length) =
      (b.drop start).take (stop - start) := by
  rcases Nat.le_total start b.length with h | h
  · rw [Nat.min_eq_left h, List.take_eq_take_iff, List.length_drop]
    omega
  · rw [Nat.min_eq_right h, List.drop_of_length_le h, List.drop_length, List.take_nil,
      List.take_nil]

/-- Of a stretch of two strings each brings its own part. -/
theorem stretch_append (a b : Bytes) {start stop : Nat} (h : start ≤ stop) :
    ((a ++ b).drop start).take (stop - start) = (a.drop start).take (stop - start) ++
      (b.drop (start - a.length)).take (stop - a.length - (start - a.length)) := by
  rw [List.drop_append, List.take_append, List.length_drop]
  congr 2
  omega

end Bytes

namespace Progress

theorem eq_of_fields {p q : Progress} (hoff : p.streamOffset = q.streamOffset)
    (hsig : p.signatureLen = q.signatureLen) (hpay : p.payloadLen = q.payloadLen)
    (hs : p.signature = q.signature) (hw : p.written = q.written) : p = q := by
  obtain ⟨⟩ := p
  obtain ⟨⟩ := q
  subst hoff hsig hpay hs hw
  rfl

/-- Takes chunks in, each with its position in the stream. -/
def fed (p : Progress) (chunks : List (Nat × Bytes)) : Progress :=
  chunks.foldl (fun q chunk => q.feed chunk.1 chunk.2) p

theorem fed_cons (p : Progress) (chunk : Nat × Bytes) (chunks : List (Nat × Bytes)) :
    p.fed (chunk :: chunks) = (p.feed chunk.1 chunk.2).fed chunks := rfl

/-- What an image needs does not change. -/
theorem payloadLen_fed (p : Progress) (chunks : List (Nat × Bytes)) :
    (p.fed chunks).payloadLen = p.payloadLen := by
  induction chunks generalizing p with
  | nil => rfl
  | cons chunk chunks ih => rw [fed_cons, ih, feed]

/-- Stream bytes that have to come, from a position on, before the image goes on. -/
def lead (p : Progress) (position : Nat) : Nat := p.next - position

/-- Stream bytes that have to come, from a position on, until the signature is there. -/
def leadSigned (p : Progress) (position : Nat) : Nat :=
  p.lead position + (p.signatureLen - p.signature.length)

theorem lead_le_leadSigned (p : Progress) (position : Nat) :
    p.lead position ≤ p.leadSigned position := Nat.le_add_right _ _

theorem leadSigned_le_need (p : Progress) (position : Nat) :
    p.leadSigned position ≤ p.need position := Nat.le_add_right _ _

private theorem min_add_min (d r n : Nat) : min d n + min r (n - min d n) = min (d + r) n := by
  rcases Nat.le_total d n with h | h
  · rw [Nat.min_eq_left h, ← Nat.add_min_add_left, Nat.add_sub_of_le h]
  · rw [Nat.min_eq_right h, Nat.sub_self, Nat.min_zero, Nat.min_eq_right (Nat.le_add_right_of_le h)]
    rfl

/-- Where a chunk is cut: at the three places that are still to come, or at its own end. -/
theorem cut_eq (p : Progress) (position len : Nat) :
    let c := p.cut position len
    c.skip = min (p.lead position) len ∧ c.start = min (p.leadSigned position) len ∧
      c.stop = min (p.need position) len ∧ c.signature = c.start - c.skip := by
  have hstart : (p.cut position len).start = min (p.leadSigned position) len := min_add_min _ _ _
  refine ⟨rfl, hstart, ?_, (Nat.add_sub_cancel_left ..).symm⟩
  calc (p.cut position len).stop
      = (p.cut position len).start +
          min (p.payloadLen - p.written) (len - (p.cut position len).start) := rfl
    _ = min (p.need position) len := by rw [hstart, min_add_min]; rfl

/-- What was cut off a room of `r` after `d` bytes are gone, and what is left of it then. -/
private theorem sub_add_sub_min (d r n : Nat) :
    d - n + (r - (min (d + r) n - min d n)) = d + r - n := by
  rcases Nat.le_total d n with h | h
  · rw [Nat.min_eq_left h]
    omega
  · rw [Nat.min_eq_right h, Nat.min_eq_right (Nat.le_add_right_of_le h)]
    omega

/-- The next byte that is needed moves on, and the position moves past it or comes nearer to it. -/
private theorem lead_advance (next position n need : Nat) :
    next + (min need n - min (next - position) n) - (position + n) = next - position - n := by
  have hn := Nat.min_le_right need n
  rcases Nat.le_total (next - position) n with h | h
  · rw [Nat.min_eq_left h]
    omega
  · rw [Nat.min_eq_right h]
    omega

/-- The three places come nearer by what was taken in, whatever was in it. -/
theorem lead_feed (p : Progress) (position : Nat) (a : Bytes) :
    let q := p.feed position a
    q.lead (position + a.length) = p.lead position - a.length ∧
      q.leadSigned (position + a.length) = p.leadSigned position - a.length ∧
      q.need (position + a.length) = p.need position - a.length := by
  obtain ⟨hskip, hstart, hstop, hsig⟩ := p.cut_eq position a.length
  have hlength : (p.feed position a).signature.length =
      p.signature.length + (p.cut position a.length).signature := by
    simp only [feed, List.length_append, List.length_take, List.length_drop]
    exact congrArg _ (Nat.min_eq_left (Nat.min_le_right _ _))
  have hwritten : (p.feed position a).written =
      p.written + ((p.cut position a.length).stop - (p.cut position a.length).start) := rfl
  have hnext : (p.feed position a).next =
      p.next + (min (p.need position) a.length - min (p.lead position) a.length) := by
    rw [next, hlength, hwritten, hsig, ← hskip, ← hstop, next]
    have h₁ : (p.cut position a.length).skip ≤ (p.cut position a.length).start :=
      Nat.le_add_right _ _
    have h₂ := p.cut_start_le position a.length
    have hoff : (p.feed position a).streamOffset = p.streamOffset := rfl
    clear hskip hstart hstop
    omega
  have hlead : (p.feed position a).lead (position + a.length) = p.lead position - a.length := by
    rw [lead, hnext]
    exact lead_advance _ _ _ _
  have hsigned : (p.feed position a).leadSigned (position + a.length) =
      p.leadSigned position - a.length := by
    rw [leadSigned, hlead, hlength, ← Nat.sub_sub, hsig, hskip, hstart, leadSigned]
    exact sub_add_sub_min _ _ _
  refine ⟨hlead, hsigned, ?_⟩
  calc (p.feed position a).need (position + a.length)
      = (p.feed position a).leadSigned (position + a.length) +
          (p.payloadLen - (p.feed position a).written) := rfl
    _ = p.need position - a.length := by
      rw [hsigned, hwritten, ← Nat.sub_sub, hstart, hstop]
      exact sub_add_sub_min _ _ _

/-- An image that is not complete needs more. -/
theorem need_pos {p : Progress} (position : Nat) (h : p.isComplete = false) :
    0 < p.need position := by
  have hs := p.signature_le
  have hw := p.written_le
  simp only [isComplete, Bool.and_eq_false_iff, beq_eq_false_iff_ne] at h
  simp only [need]
  omega

/-- The signature bytes of a chunk. -/
def signatureIn (p : Progress) (position : Nat) (chunk : Bytes) : Bytes :=
  (chunk.drop (p.lead position)).take (p.leadSigned position - p.lead position)

/-- The payload bytes of a chunk. -/
def payloadIn (p : Progress) (position : Nat) (chunk : Bytes) : Bytes :=
  (chunk.drop (p.leadSigned position)).take (p.need position - p.leadSigned position)

theorem slice?_cut (p : Progress) (position : Nat) (chunk : Bytes) :
    let c := p.cut position chunk.length
    chunk.slice? c.start c.stop = some (p.payloadIn position chunk) := by
  obtain ⟨_, hstart, hstop, _⟩ := p.cut_eq position chunk.length
  refine (Bytes.slice?_of_le (p.cut_start_le _ _) (p.cut_stop_le _ _)).trans ?_
  rw [hstart, hstop, Bytes.stretch_min, payloadIn]

theorem signatureIn_eq (p : Progress) (position : Nat) (chunk : Bytes) :
    let c := p.cut position chunk.length
    p.signatureIn position chunk = (chunk.drop c.skip).take c.signature := by
  obtain ⟨hskip, hstart, _, hsig⟩ := p.cut_eq position chunk.length
  simp only [hsig, hskip, hstart, Bytes.stretch_min, signatureIn]

theorem length_signatureIn (p : Progress) (position : Nat) (chunk : Bytes) :
    (p.signatureIn position chunk).length = (p.cut position chunk.length).signature := by
  rw [signatureIn_eq, List.length_take, List.length_drop]
  exact Nat.min_eq_left (Nat.min_le_right _ _)

theorem signature_feed (p : Progress) (position : Nat) (chunk : Bytes) :
    (p.feed position chunk).signature = p.signature ++ p.signatureIn position chunk := by
  rw [signatureIn_eq]
  rfl

theorem written_feed (p : Progress) (position : Nat) (chunk : Bytes) :
    (p.feed position chunk).written = p.written + (p.payloadIn position chunk).length := by
  rw [Bytes.length_of_slice? (p.slice?_cut position chunk), feed]

section Append

variable (p : Progress) (position : Nat) (a b : Bytes)

theorem signatureIn_append : p.signatureIn position (a ++ b) = p.signatureIn position a ++
    (p.feed position a).signatureIn (position + a.length) b := by
  obtain ⟨hlead, hsigned, _⟩ := p.lead_feed position a
  simp only [signatureIn, hlead, hsigned]
  exact Bytes.stretch_append a b (p.lead_le_leadSigned position)

theorem payloadIn_append : p.payloadIn position (a ++ b) = p.payloadIn position a ++
    (p.feed position a).payloadIn (position + a.length) b := by
  obtain ⟨_, hsigned, hneed⟩ := p.lead_feed position a
  simp only [payloadIn, hsigned, hneed]
  exact Bytes.stretch_append a b (p.leadSigned_le_need position)

/-- A chunk may come in two parts. -/
theorem feed_append :
    p.feed position (a ++ b) = (p.feed position a).feed (position + a.length) b := by
  refine eq_of_fields rfl rfl rfl ?_ ?_
  · rw [signature_feed, signature_feed, signature_feed, signatureIn_append, List.append_assoc]
  · rw [written_feed, written_feed, written_feed, payloadIn_append, List.length_append,
      Nat.add_assoc]

/-- The signature bytes of a chunk are those of its parts. -/
theorem cut_signature_append :
    (p.cut position a.length).signature +
        ((p.feed position a).cut (position + a.length) b.length).signature =
      (p.cut position (a ++ b).length).signature := by
  rw [← length_signatureIn, ← length_signatureIn, ← length_signatureIn, signatureIn_append,
    List.length_append]

/-- An image that is not complete has used all of a chunk up. -/
theorem consumed_of_incomplete (h : (p.feed position a).isComplete = false) :
    (p.cut position a.length).consumed = a.length := by
  obtain ⟨_, _, hstop, _⟩ := p.cut_eq position a.length
  obtain ⟨_, _, hneed⟩ := p.lead_feed position a
  have hpos := need_pos (position + a.length) h
  rw [Cut.consumed, hstop]
  omega

theorem consumed_append (h : (p.cut position a.length).consumed = a.length) :
    a.length + ((p.feed position a).cut (position + a.length) b.length).consumed =
      (p.cut position (a ++ b).length).consumed := by
  have hall : min (p.need position) a.length = a.length :=
    (p.cut_eq position a.length).2.2.1.symm.trans h
  calc a.length + ((p.feed position a).cut (position + a.length) b.length).consumed
      = a.length + min ((p.feed position a).need (position + a.length)) b.length :=
        congrArg _ ((p.feed position a).cut_eq _ b.length).2.2.1
    _ = min (p.need position) (a.length + b.length) := by
        rw [(p.lead_feed position a).2.2]
        omega
    _ = (p.cut position (a ++ b).length).consumed := by
        rw [← List.length_append]
        exact (p.cut_eq position _).2.2.1.symm

end Append

/-- To take a chunk in at once, or in two parts: the progress, the signature bytes and the payload
bytes with their place are the same, and the first part is used up if it does not complete the
image. No chunk takes an image over its bounds. -/
theorem feed_split (x : Placement) (chunks : List (Nat × Bytes)) (position : Nat) (a b : Bytes) :
    let p := (start x).fed chunks
    let q := p.feed position a
    let first := p.cut position a.length
    let second := q.cut (position + a.length) b.length
    let whole := p.cut position (a ++ b).length
    q.feed (position + a.length) b = p.feed position (a ++ b) ∧
    first.signature + second.signature = whole.signature ∧
    (∃ u v, a.slice? first.start first.stop = some u ∧
      b.slice? second.start second.stop = some v ∧
      (a ++ b).slice? whole.start whole.stop = some (u ++ v) ∧
      first.flashOffset = p.written ∧ second.flashOffset = first.flashOffset + u.length) ∧
    (q.isComplete = false →
      first.consumed = a.length ∧ a.length + second.consumed = whole.consumed) ∧
    first.skip ≤ first.start ∧ first.start ≤ first.stop ∧ first.stop = first.consumed ∧
      first.consumed ≤ a.length ∧ q.signature.length ≤ 8 ∧ q.written ≤ x.payloadLen.toNat := by
  intro p q first second whole
  refine ⟨(p.feed_append position a b).symm, p.cut_signature_append position a b,
    ⟨_, _, p.slice?_cut position a, q.slice?_cut (position + a.length) b, ?_, rfl,
      p.written_feed position a⟩, fun h => ?_, Nat.le_add_right _ _, p.cut_start_le _ _, rfl,
    p.cut_stop_le _ _, Nat.le_trans q.signature_le q.signatureLen_le, ?_⟩
  · rw [← p.payloadIn_append]
    exact p.slice?_cut position (a ++ b)
  · have hall := p.consumed_of_incomplete position a h
    exact ⟨hall, p.consumed_append position a b hall⟩
  · exact Nat.le_trans q.written_le (Nat.le_of_eq ((start x).payloadLen_fed chunks))

end Progress
end DualBank
