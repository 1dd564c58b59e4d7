import DualBank.Proofs.Delivery

/-! The check of what is in flash. A region is summed one buffer at a time, which comes to the same
as its sum, and the sum does not depend on the order of the bytes: the signature may be added last,
though it goes first in flash. -/
namespace DualBank

variable {σ : Type}

namespace Checksum

theorem add_eq (sum : Word) (b : Bytes) : add sum b = sum + of b := by
  induction b generalizing sum with
  | nil => simp [add, of]
  | cons x b ih =>
    have hcons : ∀ s : Word, add s (x :: b) = add (s + x.toUInt32) b := fun _ => rfl
    rw [hcons, of, hcons, ih, ih (0 + x.toUInt32), UInt32.zero_add, UInt32.add_assoc]

theorem add_of (a b : Bytes) : add (of a) b = of (b ++ a) := by
  rw [of, of, add_append, add_eq (add 0 b), add_eq (add 0 a), UInt32.add_comm]
  rfl

end Checksum

/-- The sum that the check makes of an image in flash. -/
def Placement.checksumIn (p : Placement) (a : Aperture) (c : Chip) (signature : Option Signature) :
    Word :=
  let sum := Checksum.of
    (c.cells.read (p.destination.toNat - a.base.toNat) p.payloadLen.toNat)
  match p.role, signature with
  | .primary, some s => Checksum.add sum s.bytes
  | _, _ => sum

/-- The image passes the check. -/
def Placement.Passes (p : Placement) (a : Aperture) (c : Chip) (signature : Option Signature) :
    Prop :=
  (p.role = .primary → p.signatureLen ≠ 0 → signature.isSome = true) ∧
    p.checksumIn a c signature = p.expectedChecksum

/-- The outcome of a check that accepts the images exactly if all of them pass. -/
def Plan.Judged (a : Aperture) (c : Chip) (signature : Option Signature) (ps : List Placement)
    (o : Except UpdateError Unit) : Prop :=
  (∀ p ∈ ps, p.Passes a c signature) ∧ o = .ok () ∨
    ¬(∀ p ∈ ps, p.Passes a c signature) ∧ o = .error .checksumMismatch

theorem Placement.passes_congr {p : Placement} {a : Aperture} {c c' : Chip} (h : c.Same c')
    (signature : Option Signature) : p.Passes a c' signature ↔ p.Passes a c signature := by
  obtain ⟨w, e, k, rfl⟩ := h
  rfl

namespace Plan.Judged

variable {a : Aperture} {c c' : Chip} {signature : Option Signature} {p : Placement}
  {ps : List Placement} {o o' : Except UpdateError Unit}

theorem of_not (h : ¬p.Passes a c signature) :
    Judged a c signature (p :: ps) (.error .checksumMismatch) :=
  .inr ⟨fun hall => h (hall p List.mem_cons_self), rfl⟩

theorem cons (hp : p.Passes a c signature) (h : Judged a c signature ps o) :
    Judged a c signature (p :: ps) o := by
  obtain ⟨hall, ho⟩ | ⟨hno, ho⟩ := h
  · refine .inl ⟨fun p' hp' => ?_, ho⟩
    rcases List.mem_cons.1 hp' with rfl | hp'
    · exact hp
    · exact hall p' hp'
  · exact .inr ⟨fun hall => hno fun p' hp' => hall p' (List.mem_cons_of_mem _ hp'), ho⟩

theorem same (hs : c.Same c') (h : Judged a c' signature ps o) : Judged a c signature ps o := by
  simp only [Judged, Placement.passes_congr hs] at h
  exact h

theorem unique (h : Judged a c signature ps o) (h' : Judged a c signature ps o') : o = o' := by
  obtain ⟨hall, rfl⟩ | ⟨hno, rfl⟩ := h
  · obtain ⟨_, rfl⟩ | ⟨hno, _⟩ := h'
    · rfl
    · exact absurd hall hno
  · obtain ⟨hall, _⟩ | ⟨_, rfl⟩ := h'
    · exact absurd hall hno
    · rfl

end Plan.Judged

/-- The length that the summary has for the image is that of its payload. -/
def Summary.Matches (s : Summary) (p : Placement) : Prop :=
  match p.role with
  | .primary => s.primaryWritten = p.payloadLen
  | .secondary => s.secondaryWritten = p.payloadLen

namespace Rig

section
variable {a : Aperture} {address : Word} {offset : Nat}

theorem readBack_ends {r : Rig σ} (hf : r.board.chip.Faultless) (hh : a.held = false)
    (ho : a.offset address = .ok offset) {len : Nat} (hl : offset + len ≤ r.board.chip.size)
    (hb : len ≤ r.buffer.length) : Ends (readBack a address len) r fun o r' =>
      o = .ok (r.board.chip.cells.read offset len) ∧ r.board.Same r'.board ∧
      r'.buffer.length = r.buffer.length := by
  have hread := Ends.onBoard (r := r) (Q := fun o r₁ =>
    o = .ok (r.board.chip.cells.read offset len) ∧ r.board.Same r₁.board ∧ r₁.buffer = r.buffer)
    ((Aperture.read_ok hf hh ho hl).mono fun o b hv => ⟨hv.1, ⟨hv.2.1, hv.2.2⟩, rfl⟩)
  refine hread.bind (fun v r₁ hv => ?_) fun e r₁ hfailed => ?_
  · obtain ⟨hv, hboard, hbuf⟩ := hv
    cases hv
    refine ⟨rfl, hboard, ?_⟩
    change (r₁.buffer.overlay 0 _).length = _
    rw [Bytes.length_overlay, hbuf]
    rw [Cells.length_read, hbuf]
    omega
  · cases hfailed.1

theorem sumRegion_ends {r : Rig σ} (hf : r.board.chip.Faultless) (hh : a.held = false)
    (ho : a.offset address = .ok offset) {capacity : Nat} (hcap : 0 < capacity)
    (hbuffer : capacity = r.buffer.length) (sum : Word) (done : Nat) {left : Nat}
    (hs : address.toNat + done + left ≤ UInt32.size)
    (hl : offset + done + left ≤ r.board.chip.size) :
    Ends (sumRegion a address capacity sum done left) r fun o r' =>
      o = .ok (Checksum.add sum (r.board.chip.cells.read (offset + done) left)) ∧
      r.board.Same r'.board ∧ r'.buffer.length = r.buffer.length := by
  induction left using Nat.strongRecOn generalizing sum done r with
  | ind left ih =>
    unfold sumRegion
    by_cases hzero : left = 0 ∨ capacity = 0
    · have hleft : left = 0 := by omega
      subst hleft
      rw [if_pos hzero]
      exact Ends.pure ⟨rfl, .refl _, rfl⟩
    · have hbase := Aperture.offset_eq_ok.1 ho
      have haddress : address.toNat + done < UInt32.size := by omega
      have hword : Word.ofNat? (address.toNat + done) = some (.ofNat (address.toNat + done)) :=
        if_pos haddress
      have hhere : a.offset (.ofNat (address.toNat + done)) = .ok (offset + done) := by
        rw [Aperture.offset_eq_ok, UInt32.toNat_ofNat_of_lt' haddress]
        omega
      rw [if_neg hzero]
      dsimp only
      rw [hword]
      refine (readBack_ends hf hh hhere (by omega) (by omega)).bind (fun v r₁ hv => ?_)
        fun e r₁ hfailed => ?_
      · obtain ⟨hv, hboard, hlen⟩ := hv
        cases hv
        have hsize : r₁.board.chip.size = r.board.chip.size := hboard.chip.size
        refine (ih (left - min left capacity) (by omega) (hboard.chip.faultless hf) (by omega) _
          (done + min left capacity) (by omega) (by omega)).mono fun o r₂ hrest => ?_
        obtain ⟨ho₂, hboard₂, hlen₂⟩ := hrest
        refine ⟨?_, hboard.trans hboard₂, hlen₂.trans hlen⟩
        -- The rest is read from a chip with other counters.
        have hcells : r₁.board.chip.cells.read (offset + done + min left capacity)
            (left - min left capacity) = r.board.chip.cells.read
              (offset + done + min left capacity) (left - min left capacity) :=
          Chip.read_congr fun i _ _ => by rw [hboard.chip.byte]
        have hsplit : left = min left capacity + (left - min left capacity) := by omega
        have hall := Cells.read_append r.board.chip.cells (offset + done) (min left capacity)
          (left - min left capacity)
        rw [← hsplit] at hall
        rw [ho₂, ← Nat.add_assoc, hcells, ← Checksum.add_append, ← hall]
      · cases hfailed.1

theorem regionChecksum_ends {r : Rig σ} (hf : r.board.chip.Faultless) (hh : a.held = false)
    (ho : a.offset address = .ok offset) (hbuffer : r.buffer ≠ []) {len : Word}
    (hs : address.toNat + len.toNat ≤ UInt32.size) (hl : offset + len.toNat ≤ r.board.chip.size) :
    Ends (regionChecksum a address len) r fun o r' =>
      o = .ok (Checksum.of (r.board.chip.cells.read offset len.toNat)) ∧
      r.board.Same r'.board ∧ r'.buffer ≠ [] := by
  have hpos := List.length_pos_iff.2 hbuffer
  refine Ends.get_bind (Ends.guard (fun hzero => absurd hzero (by omega)) fun _ => ?_)
  refine (sumRegion_ends hf hh ho hpos rfl 0 0 hs (by omega)).mono fun o r' hsum => ?_
  obtain ⟨hv, hboard, hlen⟩ := hsum
  exact ⟨hv, hboard, List.length_pos_iff.1 (by omega)⟩

end

variable {a : Aperture}

theorem verifyImage_ends {r : Rig σ} {p : Placement} {written : Word}
    {signature : Option Signature} (hf : r.board.chip.Faultless) (hh : a.held = false)
    (hs : p.Addressed) (hbuffer : r.buffer ≠ []) (hbase : a.base.toNat ≤ p.destination.toNat)
    (hwithin : p.destination.toNat + p.payloadLen.toNat ≤ a.base.toNat + r.board.chip.size)
    (hw : written = p.payloadLen) (hsig : p.role = .secondary → signature = none) :
    Ends (verifyImage a p written signature) r fun o r' => r.board.Same r'.board ∧ r'.buffer ≠ [] ∧
      o = if p.checksumIn a r.board.chip signature = p.expectedChecksum then .ok ()
        else .error .checksumMismatch := by
  subst hw
  have ho : a.offset p.destination = .ok (p.destination.toNat - a.base.toNat) := by
    rw [Aperture.offset_eq_ok]
    omega
  refine (regionChecksum_ends hf hh ho hbuffer hs (by omega)).bind (fun sum r₁ hsum => ?_)
    fun e r₁ hfailed => ?_
  · obtain ⟨hv, hboard, hbuf⟩ := hsum
    cases hv
    have hlast : ∀ total, total = p.checksumIn a r.board.chip signature →
        Ends (if total ≠ p.expectedChecksum then MonadExcept.throw UpdateError.checksumMismatch
          else Pure.pure () : Action σ Unit) r₁ fun o r' =>
            r.board.Same r'.board ∧ r'.buffer ≠ [] ∧
            o = if p.checksumIn a r.board.chip signature = p.expectedChecksum then .ok ()
              else .error .checksumMismatch := by
      rintro _ rfl
      by_cases hc : p.checksumIn a r.board.chip signature = p.expectedChecksum
      · rw [if_neg (by simpa using hc), if_pos hc]
        exact ⟨hboard, hbuf, rfl⟩
      · rw [if_pos hc, if_neg hc]
        exact ⟨hboard, hbuf, rfl⟩
    cases signature with
    | none => exact hlast _ (by cases hrole : p.role <;> simp [Placement.checksumIn])
    | some s =>
      have hrole : p.role = .primary := by
        cases hrole : p.role with
        | primary => rfl
        | secondary => cases hsig hrole
      exact hlast _ (by simp [Placement.checksumIn, hrole])
  · cases hfailed.1

/-- An image is checked, and then those after it. -/
theorem verifyImage_bind_ends {r : Rig σ} {s : Summary} {p : Placement} {ps : List Placement}
    {written : Word} {signature : Option Signature} (hf : r.board.chip.Faultless)
    (hh : a.held = false) (hs : p.Addressed) (hbuffer : r.buffer ≠ [])
    (hbase : a.base.toNat ≤ p.destination.toNat)
    (hwithin : p.destination.toNat + p.payloadLen.toNat ≤ a.base.toNat + r.board.chip.size)
    (hw : written = p.payloadLen) (hsig : p.role = .secondary → signature = none)
    (hsum : p.checksumIn a r.board.chip signature = p.checksumIn a r.board.chip s.signature)
    (hsigned : p.role = .primary → p.signatureLen ≠ 0 → s.signature.isSome = true)
    (hnext : ∀ {r₁ : Rig σ}, r.board.Same r₁.board → r₁.buffer ≠ [] → Ends (verify a s ps) r₁
      fun o r' => r₁.board.Same r'.board ∧ Plan.Judged a r₁.board.chip s.signature ps o) :
    Ends (verifyImage a p written signature >>= fun _ => verify a s ps) r fun o r' =>
      r.board.Same r'.board ∧ Plan.Judged a r.board.chip s.signature (p :: ps) o := by
  refine (verifyImage_ends hf hh hs hbuffer hbase hwithin hw hsig).bind (fun _ r₁ hdone => ?_)
    fun e r₁ hdone => ?_
  · obtain ⟨hb, hbuf, ho⟩ := hdone
    have hpass : p.Passes a r.board.chip s.signature := by
      refine ⟨hsigned, ?_⟩
      rw [← hsum]
      split at ho
      · assumption
      · cases ho
    refine (hnext hb hbuf).mono fun o r₂ hrest => ?_
    obtain ⟨hb₂, hjudged⟩ := hrest
    exact ⟨hb.trans hb₂, (hjudged.same hb.chip).cons hpass⟩
  · obtain ⟨hb, _, ho⟩ := hdone
    split at ho
    · cases ho
    · rename_i hne
      cases ho
      exact ⟨hb, .of_not fun hp => hne (hsum ▸ hp.2)⟩

/-- The plan is accepted exactly if every image passes. -/
theorem verify_ends {r : Rig σ} {s : Summary} {ps : List Placement}
    (hf : r.board.chip.Faultless) (hh : a.held = false)
    (hs : ∀ p ∈ ps, p.Addressed) (hbuffer : r.buffer ≠ [])
    (hbase : ∀ p ∈ ps, a.base.toNat ≤ p.destination.toNat)
    (hwithin : ∀ p ∈ ps,
      p.destination.toNat + p.payloadLen.toNat ≤ a.base.toNat + r.board.chip.size)
    (hmatches : ∀ p ∈ ps, s.Matches p) :
    Ends (verify a s ps) r fun o r' => r.board.Same r'.board ∧
      Plan.Judged a r.board.chip s.signature ps o := by
  induction ps generalizing r with
  | nil => exact Ends.pure ⟨.refl _, .inl ⟨by simp, rfl⟩⟩
  | cons p ps ih =>
    have hmem : p ∈ p :: ps := List.mem_cons_self
    have hnext : ∀ {r₁ : Rig σ}, r.board.Same r₁.board → r₁.buffer ≠ [] → Ends (verify a s ps) r₁
        fun o r' => r₁.board.Same r'.board ∧ Plan.Judged a r₁.board.chip s.signature ps o := by
      intro r₁ hb hbuf
      have hsize : r₁.board.chip.size = r.board.chip.size := hb.chip.size
      exact ih (hb.chip.faultless hf) (fun p' hp => hs p' (List.mem_cons_of_mem _ hp)) hbuf
        (fun p' hp => hbase p' (List.mem_cons_of_mem _ hp))
        (fun p' hp => hsize ▸ hwithin p' (List.mem_cons_of_mem _ hp))
        (fun p' hp => hmatches p' (List.mem_cons_of_mem _ hp))
    have hm := hmatches p hmem
    unfold verify
    unfold Summary.Matches at hm
    cases hrole : p.role with
    | primary =>
      rw [hrole] at hm
      refine Ends.guard (fun hmissing => ?_) fun hsigned => ?_
      · refine ⟨.refl _, .of_not fun hp => ?_⟩
        have hsome := hp.1 hrole hmissing.1
        have hnone := hmissing.2
        cases hsig : s.signature <;> simp [hsig] at hsome hnone
      · refine verifyImage_bind_ends hf hh (hs p hmem) hbuffer (hbase p hmem) (hwithin p hmem) hm
          (fun hr => by rw [hrole] at hr; cases hr) rfl (fun _ hne => ?_) hnext
        cases hsig : s.signature with
        | some _ => rfl
        | none => exact absurd ⟨hne, by rw [hsig]; rfl⟩ hsigned
    | secondary =>
      rw [hrole] at hm
      have hsum : p.checksumIn a r.board.chip none = p.checksumIn a r.board.chip s.signature := by
        simp only [Placement.checksumIn, hrole]
      exact verifyImage_bind_ends hf hh (hs p hmem) hbuffer (hbase p hmem) (hwithin p hmem) hm
        (fun _ => rfl) hsum (fun hr => by rw [hrole] at hr; cases hr) hnext

end Rig
end DualBank
