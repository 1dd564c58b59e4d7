import DualBank.Proofs.Reception
import DualBank.Proofs.Uptake

/-! The transfer over an honest connection, into flash that is erased where the images go. It comes
to the same however the stream is cut: each image gets the bytes of the stream at its place, as far
as there are any, and the transfer fails exactly if an image is not whole. -/
namespace DualBank

variable {σ : Type}

/-- The signature that a stream has for an image. -/
def Placement.signatureOf? (p : Placement) (C : Bytes) : Option Signature :=
  if p.signatureLen.toNat = Signature.length then Signature.ofBytes? (p.signatureOf C) else none

/-- Where the stream stands after an image. It does not move for an empty one. -/
def Placement.positionAfter (p : Placement) (q : Nat) : Nat :=
  if p.span = 0 then q else p.streamStop

/-- The chip with the payload of an image in place. -/
def Chip.load (a : Aperture) (C : Bytes) (c : Chip) (p : Placement) : Chip :=
  c.preset (p.destination.toNat - a.base.toNat) (p.payloadOf C)

/-- What is noted of an image that is whole. -/
def Summary.take (C : Bytes) (s : Summary) (p : Placement) : Summary :=
  match p.role with
  | .primary => { s with primaryWritten := p.payloadLen, signature := p.signatureOf? C }
  | .secondary => { s with secondaryWritten := p.payloadLen }

/-- A whole image is noted as the stream has it. -/
theorem Uptake.Sound.record {u : Uptake} {p : Placement} {C : Bytes} (h : u.Sound p C)
    (hc : u.progress.isComplete = true) (s : Summary) :
    s.record p.role u.progress = s.take C p := by
  obtain ⟨hsig, hwritten, _⟩ := h.complete hc
  have hsignature : u.progress.signature? = p.signatureOf? C := by
    rw [Progress.signature?, Placement.signatureOf?, h.signatureLen, hsig]
  have hpayload : UInt32.ofNat u.progress.written = p.payloadLen := by
    rw [hwritten, UInt32.ofNat_toNat]
  unfold Summary.record Summary.take
  cases p.role <;> simp only [hsignature, hpayload]

namespace Plan

/-- What the transfer of some images comes to, from a position of the stream on. -/
def brought (C : Bytes) : Nat → Summary → List Placement → Except UpdateError Summary
  | q, s, [] => .ok { s with received := q }
  | q, s, p :: ps =>
    if p.span ≠ 0 ∧ C.length < p.streamStop then .error .streamTruncated
    else brought C (p.positionAfter q) (s.take C p) ps

theorem Ordered.le_streamOffset {q : Nat} {ps : List Placement} (h : Ordered q ps) :
    ∀ p ∈ ps, q ≤ p.streamOffset.toNat := by
  induction ps generalizing q with
  | nil => simp
  | cons p ps ih =>
    intro p' hp'
    rcases List.mem_cons.1 hp' with rfl | hp'
    · exact h.1
    · have hnext := ih h.2 p' hp'
      have hfirst := h.1
      simp only [Placement.streamStop] at hnext
      omega

theorem Ordered.mono {q q' : Nat} {ps : List Placement} (h : Ordered q ps) (hq : q' ≤ q) :
    Ordered q' ps := by
  cases ps with
  | nil => trivial
  | cons p ps => exact ⟨Nat.le_trans hq h.1, h.2⟩

end Plan

/-- There is an address for each byte of the payload. -/
def Placement.Addressed (p : Placement) : Prop :=
  p.destination.toNat + p.payloadLen.toNat ≤ UInt32.size

/-- The flash byte belongs to the region of the image. -/
def Placement.Spans (p : Placement) (n : Nat) : Prop :=
  p.destination.toNat - p.signatureLen.toNat ≤ n ∧ n < p.destination.toNat + p.payloadLen.toNat

/-- The regions of two images have no byte in common. -/
def Placement.Apart (p p' : Placement) : Prop := ∀ n, ¬(p.Spans n ∧ p'.Spans n)

namespace Aperture

/-- The region of the image is in the chip, and erased. -/
structure Clear (a : Aperture) (c : Chip) (p : Placement) : Prop where
  base_le : a.base.toNat ≤ p.destination.toNat - p.signatureLen.toNat
  within : p.destination.toNat + p.payloadLen.toNat ≤ a.base.toNat + c.size
  erased : ∀ i, p.Spans (a.base.toNat + i) → c.byte i = erasedByte

theorem Clear.addressed {a : Aperture} {c : Chip} {p : Placement} (h : a.Clear c p)
    (hs : a.base.toNat + c.size ≤ UInt32.size) : p.Addressed :=
  Nat.le_trans h.within hs

/-- Loading one image leaves the regions of the others as they were. -/
theorem Clear.load {a : Aperture} {c : Chip} {p p' : Placement} (h : a.Clear c p')
    (hp : a.Clear c p) (hapart : p.Apart p') (C : Bytes) :
    a.Clear (c.load a C p) p' where
  base_le := h.base_le
  within := h.within
  erased i hi := by
    have hbase := hp.base_le
    have hwithin := h.within
    have hlen : (p.payloadOf C).length ≤ p.payloadLen.toNat := List.length_take_le _ _
    have hsize : i < c.size := by
      have := hi.2
      omega
    rw [Chip.load, Chip.byte_preset_of_not hsize, h.erased i hi]
    rintro ⟨hlo, hhi⟩
    refine hapart _ ⟨⟨?_, ?_⟩, hi⟩ <;> omega

theorem Clear.same {a : Aperture} {c c' : Chip} {p : Placement} (h : a.Clear c p)
    (hs : c.Same c') : a.Clear c' p where
  base_le := h.base_le
  within := hs.size ▸ h.within
  erased i hi := by
    rw [hs.byte]
    exact h.erased i hi

/-- Erasing more does no harm. -/
theorem Clear.wiped {a : Aperture} {c : Chip} {p : Placement} (h : a.Clear c p)
    (start stop : Nat) : a.Clear (c.wiped start stop) p where
  base_le := h.base_le
  within := h.within
  erased i hi := by
    have hwithin := h.within
    have hsize : i < c.size := by
      have := hi.2
      omega
    rw [Chip.byte_wiped _ _ _ hsize, h.erased i hi, ite_self]

theorem clear_of_sectors {a : Aperture} {c : Chip} {p : Placement} {start len : Word}
    {lo hi : Nat} (hs : p.regionStart? = some start) (hl : p.regionLen? = some len)
    (hr : a.sectors start len = .ok (lo, hi)) (hsize : hi ≤ c.size) :
    a.Clear (c.wiped lo hi) p := by
  have hstart := Placement.regionStart?_eq_some.1 hs
  have hlen := Placement.regionLen?_eq_some.1 hl
  obtain ⟨hbase, rfl, _⟩ := sectors_eq_ok.1 hr
  have hspan := le_sectorsOf len.toNat
  rw [hlen] at hsize hspan
  simp only [Placement.span] at hspan hsize
  refine ⟨by omega, ?_, fun i hi => ?_⟩
  · change _ ≤ a.base.toNat + c.size
    omega
  · obtain ⟨hlo, hhi⟩ := hi
    rw [hlen]
    simp only [Placement.span]
    rw [Chip.byte_wiped _ _ _ (by omega), if_pos (by omega)]

end Aperture

/-- After the erasures the regions of the images are in the chip and erased. -/
theorem Board.eraseTargets_clear (a : Aperture) (ps : List Placement) (b : Board) :
    Ends (eraseTargets a ps) b fun o b' => b.store.Same b'.store ∧ b'.chip.size = b.chip.size ∧
      (b.chip.Faultless → b'.chip.Faultless) ∧
      (∀ p, a.Clear b.chip p → a.Clear b'.chip p) ∧
      (o.isOk = true → (∀ p ∈ ps, a.Clear b'.chip p) ∧ (ps ≠ [] → a.held = false)) := by
  induction ps generalizing b with
  | nil => exact ⟨.refl _, rfl, id, fun _ => id, fun _ => ⟨by simp, fun h => absurd rfl h⟩⟩
  | cons p ps ih =>
    have hrefused : ∀ e, Ends (MonadExcept.throw e : Board.Action Unit) b fun o b' =>
        b.store.Same b'.store ∧ b'.chip.size = b.chip.size ∧
        (b.chip.Faultless → b'.chip.Faultless) ∧
        (∀ p, a.Clear b.chip p → a.Clear b'.chip p) ∧
        (o.isOk = true → (∀ p' ∈ p :: ps, a.Clear b'.chip p') ∧ (p :: ps ≠ [] → a.held = false)) :=
      fun e => Ends.throw ⟨.refl _, rfl, id, fun _ => id, fun hk => nomatch hk⟩
    unfold eraseTargets
    split
    · rename_i start hs
      split
      · rename_i len hl
        refine (a.erase_ends start len b).bind (fun _ b₁ herased => ?_) fun e b₁ hfailed => ?_
        · obtain ⟨hstore, hh, lo, hi, hr, hsize, hchip⟩ := herased
          have hsize₁ : b₁.chip.size = b.chip.size := hchip.size
          refine (ih b₁).mono fun o b₂ hrest => ?_
          obtain ⟨hst, hsz, hf, hkeep, hk⟩ := hrest
          refine ⟨hstore.trans hst, hsz.trans hsize₁, fun h => hf (hchip.faultless h),
            fun p' h => hkeep p' ((h.wiped lo hi).same hchip), fun hok => ⟨?_, fun _ => hh⟩⟩
          intro p' hp'
          rcases List.mem_cons.1 hp' with rfl | hp'
          · exact hkeep _ ((Aperture.clear_of_sectors hs hl hr hsize).same hchip)
          · exact (hk hok).1 p' hp'
        · obtain ⟨hstore, hchip⟩ := hfailed
          exact ⟨hstore, hchip.size, fun h => hchip.faultless h, fun p' h => h.same hchip,
            fun hk => by cases hk⟩
      · exact hrefused _
    · exact hrefused _

namespace Rig

/-- The payload bytes of a chunk go to flash in one write, if there are any. -/
theorem deposit_ends {a : Aperture} {p : Placement} {c : Cut} {chunk : Bytes} {r : Rig σ}
    (hstart : c.start ≤ c.stop) (hstop : c.stop ≤ chunk.length)
    {Q : Except UpdateError Unit → Board → Prop} (hnone : c.start = c.stop → Q (.ok ()) r.board)
    (hsome : c.start < c.stop → match Word.ofNat? (p.destination.toNat + c.flashOffset) with
      | some address =>
        Ends (a.write address ((chunk.drop c.start).take (c.stop - c.start))) r.board Q
      | none => Q (.error .invalidAddress) r.board) :
    Ends (deposit a p c chunk) r fun o r' =>
      r'.link = r.link ∧ r'.buffer = r.buffer ∧ Q o r'.board := by
  unfold deposit
  by_cases hc : c.start = c.stop
  · rw [if_pos hc]
    exact Ends.pure ⟨rfl, rfl, hnone hc⟩
  · have hmade := hsome (by omega)
    rw [if_neg hc, Bytes.slice?_eq_some.2 ⟨hstart, hstop, rfl⟩]
    dsimp only
    cases hw : Word.ofNat? (p.destination.toNat + c.flashOffset) with
    | none =>
      rw [hw] at hmade
      exact Ends.throw ⟨rfl, rfl, hmade⟩
    | some address =>
      rw [hw] at hmade
      exact Ends.onBoard (hmade.mono fun _ _ h => ⟨rfl, rfl, h⟩)

variable [Link σ]

/-- What the window holds, and what the connection has yet to bring. -/
def Pending (r : Rig σ) (w : Window) (D : Bytes) : Prop :=
  ∃ rest, Link.Serves r.link rest ∧ w.start ≤ w.stop ∧ w.stop ≤ r.buffer.length ∧
    D = (r.buffer.drop w.start).take (w.stop - w.start) ++ rest

theorem Pending.advance {r : Rig σ} {w : Window} {D : Bytes} (h : r.Pending w D) {n : Nat}
    (hn : n ≤ w.stop - w.start) : r.Pending (w.advance n) (D.drop n) := by
  obtain ⟨rest, hs, hle, hlen, rfl⟩ := h
  rw [Window.advance_eq (by omega)]
  refine ⟨rest, hs, ?_, hlen, ?_⟩
  · dsimp only
    omega
  · have hwindow : n ≤ ((r.buffer.drop w.start).take (w.stop - w.start)).length := by
      rw [List.length_take, List.length_drop]
      omega
    rw [List.drop_append_of_le_length hwindow, List.drop_take, List.drop_drop,
      show w.stop - w.start - n = w.stop - (w.start + n) by omega]

/-- The rest of the rig does not matter to what is pending. -/
theorem Pending.congr {r r' : Rig σ} {w : Window} {D : Bytes} (h : r.Pending w D)
    (hlink : r'.link = r.link) (hbuffer : r'.buffer = r.buffer) : r'.Pending w D := by
  obtain ⟨rest, hs, hle, hlen, hD⟩ := h
  exact ⟨rest, hlink ▸ hs, hle, hbuffer ▸ hlen, hbuffer ▸ hD⟩

/-- The bytes in the window are the next ones of the stream. -/
theorem Pending.chunk {r : Rig σ} {w : Window} {C : Bytes} {q : Nat}
    (h : r.Pending w (C.drop q)) (hq : q ≤ C.length) (hw : w.start < w.stop) :
    q + (w.stop - w.start) ≤ C.length ∧ ∃ hne,
      w.chunk? r.buffer = some ⟨(C.drop q).take (w.stop - w.start), hne⟩ := by
  obtain ⟨rest, _, _, hstop, hD⟩ := h
  obtain ⟨chunk, hne, hchunk, rfl, hlen⟩ := Window.chunk?_of_lt hw hstop
  have hnext : (C.drop q).take (w.stop - w.start) =
      (r.buffer.drop w.start).take (w.stop - w.start) := by
    rw [hD, List.take_append_of_le_length (by omega), List.take_of_length_le (by omega)]
  constructor
  · rw [← hnext, List.length_take, List.length_drop] at hlen
    omega
  · rw [hnext]
    exact ⟨hne, hchunk⟩

/-- The window is not empty afterwards, unless nothing is left. -/
theorem refill_ends {r : Rig σ} {w : Window} {D : Bytes} (h : r.Pending w D)
    (hb : r.buffer ≠ []) : Ends (refill w) r fun o r' => r.board.Same r'.board ∧
      r'.buffer.length = r.buffer.length ∧
      match o with
      | .ok w' => r'.Pending w' D ∧ w'.start < w'.stop
      | .error e => e = .streamTruncated ∧ D = [] := by
  obtain ⟨rest, hs, hle, hlen, rfl⟩ := h
  unfold refill
  by_cases hw : w.start ≠ w.stop
  · rw [if_pos hw]
    exact Ends.pure ⟨.refl _, rfl, ⟨rest, hs, hle, hlen, rfl⟩, by omega⟩
  · have heq : w.start = w.stop := Decidable.not_not.1 hw
    have hcap : 0 < r.buffer.length := List.length_pos_iff.2 hb
    have hempty : (r.buffer.drop w.start).take (w.stop - w.start) = [] := by
      rw [heq, Nat.sub_self, List.take_zero]
    rw [if_neg hw, hempty, List.nil_append]
    refine Ends.get_bind ((readInto_ends hs hcap).bind (fun count r₁ hread => ?_)
      fun e r₁ hfailed => by obtain ⟨_, he, _⟩ := hfailed; cases he)
    obtain ⟨n, hn, hroom, hpos, ht⟩ := hread
    cases hn
    have hlen₁ := ht.length_buffer (by omega)
    refine Ends.guard (fun hzero => ?_) fun hzero => ?_
    · have hnil : rest = [] := Decidable.byContradiction fun hne => by
        have := hpos hne
        omega
      exact ⟨ht.board, hlen₁, rfl, hnil⟩
    · have hmin : min count r.buffer.length = count := Nat.min_eq_left (by omega)
      rw [hmin]
      refine Ends.pure ⟨ht.board, hlen₁, ⟨rest.drop count, ht.serves, Nat.zero_le _, ?_, ?_⟩, ?_⟩
      · change count ≤ r₁.buffer.length
        omega
      · change rest = (r₁.buffer.drop 0).take (count - 0) ++ rest.drop count
        rw [List.drop_zero, Nat.sub_zero, ht.front, List.take_append_drop]
      · exact Nat.pos_of_ne_zero hzero

/-- A turn over an honest connection takes in the next bytes of the stream. It fails for want of
them, or where their payload is written. -/
theorem step_serves {a : Aperture} {C : Bytes} {p : Placement} {u : Uptake} {r : Rig σ}
    (hpending : r.Pending u.window (C.drop u.position)) (hbuffer : r.buffer ≠ [])
    (hle : u.position ≤ C.length) (hu : u.progress.isComplete = false) {P : Rig σ → Prop}
    (hP : Ends (refill u.window) r fun _ r₁ => P r₁)
    {Q : Except UpdateError { v : Uptake // v.need < u.need } → Rig σ → Prop}
    (hshort : ∀ r₁, P r₁ → r.board.Same r₁.board → u.position = C.length →
      Q (.error .streamTruncated) r₁)
    (hchunk : ∀ r₁ w len, P r₁ → r.board.Same r₁.board → r₁.buffer ≠ [] →
      r₁.Pending w (C.drop u.position) → w.stop - w.start = len → u.position + len ≤ C.length →
      Ends (deposit a p (u.progress.cut u.position len) ((C.drop u.position).take len)) r₁
        fun o r₂ => match o with
          | .ok _ => ∀ v, v.val = { u with window := w }.feed ((C.drop u.position).take len) →
              Q (.ok v) r₂
          | .error e => Q (.error e) r₂) :
    Ends (step a p u hu) r Q := by
  unfold step
  refine ((refill_ends hpending hbuffer).and hP).bind (fun w r₁ hfilled => ?_)
    fun e r₁ hfailed => ?_
  · obtain ⟨⟨hboard, hlength, hpending₁, hw⟩, hp⟩ := hfilled
    obtain ⟨hfit, hne, hwindow⟩ := hpending₁.chunk hle hw
    have hlen : ((C.drop u.position).take (w.stop - w.start)).length = w.stop - w.start := by
      rw [List.length_take, List.length_drop]
      omega
    have hbuffer₁ : r₁.buffer ≠ [] :=
      List.length_pos_iff.1 (hlength ▸ List.length_pos_iff.2 hbuffer)
    refine Ends.get_bind ?_
    rw [hwindow]
    dsimp only
    rw [hlen]
    refine (hchunk r₁ w _ hp hboard hbuffer₁ hpending₁ rfl hfit).bind (fun _ r₂ hdone => ?_)
      fun e r₂ hfailed => hfailed
    exact Ends.pure (hdone _ rfl)
  · obtain ⟨⟨hboard, _, rfl, hnil⟩, hp⟩ := hfailed
    have hnone := List.drop_eq_nil_iff.1 hnil
    exact hshort r₁ hp hboard (by omega)

/-- An image is being taken in, from the device `b` on. -/
structure Taking (a : Aperture) (C : Bytes) (b : Board) (p : Placement) (u : Uptake)
    (r : Rig σ) : Prop where
  pending : r.Pending u.window (C.drop u.position)
  buffer : r.buffer ≠ []
  sound : u.Sound p C
  store : b.store.Same r.board.store
  chip : (b.chip.preset (p.destination.toNat - a.base.toNat)
    (p.payloadUpTo C u.position)).Same r.board.chip

section
variable {a : Aperture} {C : Bytes} {b : Board} {p : Placement} {u : Uptake} {r : Rig σ}

/-- More payload bytes are written, next to those that are there. -/
theorem Taking.write (h : Taking a C b p u r) (hf : b.Faultless) (hh : a.held = false)
    (hs : p.Addressed) (hc : a.Clear b.chip p) {piece : Bytes}
    (hleft : u.progress.written + piece.length ≤ p.payloadLen.toNat) (hne : piece ≠ []) :
    ∃ address, Word.ofNat? (p.destination.toNat + u.progress.written) = some address ∧
      Ends (a.write address piece) r.board fun o b' => o = .ok () ∧ b.store.Same b'.store ∧
        (b.chip.preset (p.destination.toNat - a.base.toNat)
          (p.payloadUpTo C u.position ++ piece)).Same b'.chip := by
  obtain ⟨hwritten, _⟩ := h.sound.payloadUpTo_feed 0
  have hpos := List.length_pos_iff.2 hne
  have hbase := hc.base_le
  have hwithin := hc.within
  have hsize : r.board.chip.size = b.chip.size := h.chip.size
  have haddress : p.destination.toNat + u.progress.written < UInt32.size := by
    unfold Placement.Addressed at hs
    omega
  have hoffset : a.offset (.ofNat (p.destination.toNat + u.progress.written)) =
      .ok (p.destination.toNat - a.base.toNat + u.progress.written) := by
    rw [Aperture.offset_eq_ok, UInt32.toNat_ofNat_of_lt' haddress]
    omega
  have hrefusal : r.board.chip.writeRefusal
      (p.destination.toNat - a.base.toNat + u.progress.written) piece = none := by
    refine Chip.writeRefusal_eq_none (by omega) fun i hlo hhi => ?_
    rw [h.chip.byte, Chip.byte_preset_of_not (by omega) (by omega)]
    refine hc.erased i ⟨?_, ?_⟩ <;> omega
  refine ⟨_, if_pos haddress, (Aperture.write_ok (h.chip.faultless hf.chip) hh hoffset
    hrefusal).mono fun o b' hdone => ?_⟩
  obtain ⟨ho, hchip, hstore⟩ := hdone
  refine ⟨ho, h.store.trans hstore, ?_⟩
  rw [Chip.preset_append, hwritten]
  exact (h.chip.preset _ _).trans hchip

/-- The payload bytes of a chunk are written. -/
theorem Taking.deposit (h : Taking a C b p u r) (hf : b.Faultless) (hh : a.held = false)
    (hs : p.Addressed) (hc : a.Clear b.chip p) {len : Nat}
    (hlen : u.position + len ≤ C.length) :
    Ends (Rig.deposit a p (u.progress.cut u.position len) ((C.drop u.position).take len)) r
      fun o r' => o = .ok () ∧ r'.link = r.link ∧ r'.buffer = r.buffer ∧
        b.store.Same r'.board.store ∧
        (b.chip.preset (p.destination.toNat - a.base.toNat)
          (p.payloadUpTo C (u.position + (u.progress.cut u.position len).stop))).Same
          r'.board.chip := by
  obtain ⟨_, happend⟩ := h.sound.payloadUpTo_feed len
  have hleft : (u.progress.cut u.position len).stop - (u.progress.cut u.position len).start ≤
      p.payloadLen.toNat - u.progress.written := by
    rw [← h.sound.payloadLen]
    simp only [Progress.cut]
    omega
  have hwritten := u.progress.written_le
  rw [h.sound.payloadLen] at hwritten
  have hoffset : (u.progress.cut u.position len).flashOffset = u.progress.written := rfl
  have hstart := u.progress.cut_start_le u.position len
  have hstop := u.progress.cut_stop_le u.position len
  have hlength : ((C.drop u.position).take len).length = len := by
    rw [List.length_take, List.length_drop]
    omega
  rw [happend]
  generalize u.progress.cut u.position len = c at hleft hoffset hstart hstop ⊢
  refine (deposit_ends (Q := fun o b' => o = .ok () ∧ b.store.Same b'.store ∧
    (b.chip.preset (p.destination.toNat - a.base.toNat) (p.payloadUpTo C u.position ++
      (((C.drop u.position).take len).drop c.start).take (c.stop - c.start))).Same b'.chip)
    hstart (by omega) (fun hnone => ?_) fun hsome => ?_).mono fun o r' hdone => ?_
  · rw [hnone, Nat.sub_self, List.take_zero, List.append_nil]
    exact ⟨rfl, h.store, h.chip⟩
  · have hpiece : ((((C.drop u.position).take len).drop c.start).take (c.stop - c.start)).length =
        c.stop - c.start := by
      rw [List.length_take, List.length_drop]
      omega
    rw [← hpiece] at hleft
    obtain ⟨address, hword, hwritten⟩ := h.write hf hh hs hc (Nat.add_le_of_le_sub' hwritten hleft)
      (List.length_pos_iff.1 (by omega))
    rw [hoffset, hword]
    exact hwritten
  · obtain ⟨hlink, hbuffer, ho, hstore, hchip⟩ := hdone
    exact ⟨ho, hlink, hbuffer, hstore, hchip⟩

theorem Taking.step (h : Taking a C b p u r) (hf : b.Faultless) (hh : a.held = false)
    (hs : p.Addressed) (hc : a.Clear b.chip p)
    (hu : u.progress.isComplete = false) : Ends (Rig.step a p u hu) r fun o r' =>
      match o with
      | .ok v => Taking a C b p v.val r'
      | .error e => e = .streamTruncated ∧ u.position = C.length ∧ b.store.Same r'.board.store ∧
          (b.chip.preset (p.destination.toNat - a.base.toNat)
            (p.payloadUpTo C u.position)).Same r'.board.chip := by
  refine step_serves h.pending h.buffer h.sound.position_le hu
    (P := fun _ => True) (Ends.of_cases (fun _ _ _ => trivial) fun _ _ _ => trivial)
    (fun r₁ _ hboard hend => ⟨rfl, hend, h.store.trans hboard.store, h.chip.trans hboard.chip⟩)
    fun r₁ w len _ hboard hbuffer hpending hlen hfit => ?_
  have h₁ : Taking a C b p { u with window := w } r₁ :=
    ⟨hpending, hbuffer, h.sound.window w, h.store.trans hboard.store, h.chip.trans hboard.chip⟩
  refine (h₁.deposit hf hh hs hc hfit).mono fun o r₂ hdone => ?_
  obtain ⟨rfl, hlink, hbuf, hstore, hchip⟩ := hdone
  intro v hv
  have hlength : ((C.drop u.position).take len).length = len := by
    rw [List.length_take, List.length_drop]
    omega
  have hcut : (u.progress.cut u.position len).stop ≤ w.stop - w.start :=
    hlen ▸ u.progress.cut_stop_le _ _
  have hadvance := (hpending.advance hcut).congr hlink hbuf
  rw [List.drop_drop] at hadvance
  change Taking a C b p v.val r₂
  rw [hv]
  refine ⟨?_, hbuf ▸ hbuffer, (Uptake.Sound.feed h₁.sound hfit).1, hstore, ?_⟩ <;>
    simp only [Uptake.feed, Cut.consumed, hlength]
  · exact hadvance
  · exact hchip

theorem Taking.takeImage (h : Taking a C b p u r) (hf : b.Faultless) (hh : a.held = false)
    (hs : p.Addressed) (hc : a.Clear b.chip p) :
    Ends (Rig.takeImage a p u) r fun o r' => b.store.Same r'.board.store ∧
      (b.chip.load a C p).Same r'.board.chip ∧
      match o with
      | .ok v => Taking a C b p v r' ∧ v.progress.isComplete = true ∧
          v.position = p.positionAfter u.position ∧ ¬(p.span ≠ 0 ∧ C.length < p.streamStop)
      | .error e => e = .streamTruncated ∧ p.span ≠ 0 ∧ C.length < p.streamStop := by
  -- What the image needs is less after each chunk. The device `b` from before it stays.
  induction hn : u.need using Nat.strongRecOn generalizing u r with
  | ind n ih =>
    have hcomplete := h.sound.placed.isComplete
    have hle := h.sound.position_le
    have hstop := h.sound.position_le_stop
    unfold Rig.takeImage
    by_cases hu : u.progress.isComplete = true
    · rw [dif_pos hu]
      obtain ⟨_, _, hpayload⟩ := h.sound.complete hu
      have hchip := h.chip
      rw [hpayload] at hchip
      have hend := hcomplete.1 hu
      refine Ends.pure ⟨h.store, hchip, h, hu, ?_, by omega⟩
      simp only [Placement.positionAfter]
      split <;> omega
    · rw [dif_neg hu]
      have hspan : p.span ≠ 0 ∧ u.position ≠ p.streamStop := by
        rw [hcomplete] at hu
        omega
      refine (h.step hf hh hs hc (by simpa using hu)).bind (fun v r₁ h₁ => ?_) fun e r₁ h₁ => ?_
      · refine (ih v.val.need (hn ▸ v.property) h₁ rfl).mono fun o r₂ hrest => ?_
        obtain ⟨hstore, hchip, ho⟩ := hrest
        refine ⟨hstore, hchip, ?_⟩
        cases o with
        | error e => exact ho
        | ok w =>
          obtain ⟨htaking, hdone, hpos, hfull⟩ := ho
          refine ⟨htaking, hdone, ?_, hfull⟩
          rw [hpos, Placement.positionAfter, Placement.positionAfter, if_neg hspan.1,
            if_neg hspan.1]
      · obtain ⟨he, hend, hstore, hchip⟩ := h₁
        rw [h.sound.payloadUpTo_short hend] at hchip
        exact ⟨hstore, hchip, he, hspan.1, by omega⟩

end

theorem load_same {a : Aperture} {C : Bytes} {ps : List Placement} {c c' : Chip}
    (h : c.Same c') : (ps.foldl (Chip.load a C) c).Same (ps.foldl (Chip.load a C) c') := by
  induction ps generalizing c c' with
  | nil => exact h
  | cons p ps ih => exact ih (h.preset _ _)

/-- Images past the end of the stream get nothing. -/
theorem load_short {a : Aperture} {C : Bytes} {ps : List Placement} {q : Nat}
    (h : Plan.Ordered q ps) (hq : C.length ≤ q) (c : Chip) : ps.foldl (Chip.load a C) c = c := by
  have hstart := h.le_streamOffset
  induction ps with
  | nil => rfl
  | cons p ps ih =>
    have hp := hstart p List.mem_cons_self
    have hnil : p.payloadOf C = [] := by
      rw [Placement.payloadOf, List.drop_eq_nil_of_le, List.take_nil]
      simp only [Placement.payloadStart]
      omega
    have hrest : Plan.Ordered q ps := by
      refine h.2.mono ?_
      simp only [Placement.streamStop]
      omega
    rw [List.foldl_cons, Chip.load, hnil, Chip.preset_nil]
    exact ih hrest fun p' hp' => hstart p' (List.mem_cons_of_mem _ hp')

theorem takeImages_ends {a : Aperture} {C : Bytes} {r : Rig σ} {q : Nat} {w : Window}
    (s : Summary) {ps : List Placement} (hpending : r.Pending w (C.drop q)) (hq : q ≤ C.length)
    (hbuffer : r.buffer ≠ []) (hf : r.board.Faultless) (hh : a.held = false)
    (hs : ∀ p ∈ ps, p.Addressed) (hfits : ∀ p ∈ ps, p.Fits)
    (hordered : Plan.Ordered q ps) (hclear : ∀ p ∈ ps, a.Clear r.board.chip p)
    (hapart : ps.Pairwise Placement.Apart) :
    Ends (takeImages a q w s ps) r fun o r' => o = Plan.brought C q s ps ∧
      r.board.store.Same r'.board.store ∧
      (ps.foldl (Chip.load a C) r.board.chip).Same r'.board.chip ∧
      (o.isOk = true → r'.buffer ≠ []) := by
  induction ps generalizing r q w s with
  | nil => exact Ends.pure ⟨rfl, .refl _, .refl _, fun _ => hbuffer⟩
  | cons p ps ih =>
    obtain ⟨hpq, hrest⟩ := hordered
    obtain ⟨hpapart, hpsapart⟩ := List.pairwise_cons.1 hapart
    have hcp := hclear p List.mem_cons_self
    have hstart : Taking a C r.board p ⟨q, w, .start p⟩ r := by
      have hsound := Uptake.sound_start (hfits p List.mem_cons_self) hpq hq w
      refine ⟨hpending, hbuffer, hsound, .refl _, ?_⟩
      have hnone : q - p.payloadStart = 0 := by
        simp only [Placement.payloadStart]
        omega
      rw [Placement.payloadUpTo, hnone, List.take_zero, Chip.preset_nil]
      exact .refl _
    unfold takeImages Plan.brought
    refine (hstart.takeImage hf hh (hs p List.mem_cons_self) hcp).bind (fun v r₁ htaken => ?_)
      fun e r₁ hfailed => ?_
    · obtain ⟨hstore, hchip, htaking, hdone, hpos, hfull⟩ := htaken
      rw [if_neg hfull, htaking.sound.record hdone, ← hpos]
      have hsize : r₁.board.chip.size = r.board.chip.size := hchip.size
      have hordered : Plan.Ordered v.position ps := by
        refine hrest.mono ?_
        rw [hpos, Placement.positionAfter]
        split
        · simp only [Placement.streamStop]
          omega
        · exact Nat.le_refl _
      refine (ih _ htaking.pending htaking.sound.position_le htaking.buffer
        ⟨hchip.faultless hf.chip, hstore.faultless hf.store⟩
        (fun p' hp' => hs p' (List.mem_cons_of_mem _ hp'))
        (fun p' hp' => hfits p' (List.mem_cons_of_mem _ hp')) hordered
        (fun p' hp' => ((hclear p' (List.mem_cons_of_mem _ hp')).load hcp
          (hpapart p' hp') C).same hchip) hpsapart).mono fun o r₂ hlast => ?_
      obtain ⟨ho, hst, hch, hb⟩ := hlast
      exact ⟨ho, hstore.trans hst, (load_same hchip).trans hch, hb⟩
    · obtain ⟨hstore, hchip, rfl, hshort⟩ := hfailed
      rw [if_pos hshort]
      refine ⟨rfl, hstore, ?_, fun hk => by cases hk⟩
      rw [List.foldl_cons, load_short hrest (by omega)]
      exact hchip

/-- A transfer into erased regions that do not overlap. -/
theorem transfer_ends {a : Aperture} {C : Bytes} {r : Rig σ} {plan : Plan}
    (hserves : Link.Serves r.link (C.drop plan.streamStart.toNat))
    (hq : plan.streamStart.toNat ≤ C.length) (hbuffer : r.buffer ≠ []) (hf : r.board.Faultless)
    (hh : a.held = false) (hs : ∀ p ∈ plan.placements, p.Addressed) (hw : plan.WellFormed)
    (hclear : ∀ p ∈ plan.placements, a.Clear r.board.chip p)
    (hapart : plan.placements.Pairwise Placement.Apart) :
    Ends (transfer a plan) r fun o r' =>
      o = Plan.brought C plan.streamStart.toNat {} plan.placements ∧
      r.board.store.Same r'.board.store ∧
      (plan.placements.foldl (Chip.load a C) r.board.chip).Same r'.board.chip ∧
      (o.isOk = true → r'.buffer ≠ []) := by
  refine Ends.get_bind (Ends.guard (fun hb => absurd hb hbuffer) fun _ => ?_)
  have hpending : r.Pending {} (C.drop plan.streamStart.toNat) :=
    ⟨_, hserves, Nat.le_refl _, Nat.zero_le _, by simp⟩
  exact takeImages_ends {} hpending hq hbuffer hf hh hs hw.fits hw.ordered hclear hapart

end Rig
end DualBank
