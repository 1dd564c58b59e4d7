import Mathlib.Algebra.BigOperators.Group.Finset.Basic
import DualBank.Proofs.Carriage

/-! What the check of a plan adds up. The checksum of a region is the sum of its bytes, each counted
once, whatever the size of the buffer that they are read through. What a transfer notes of its
images is right whatever the connection said, if the transfer succeeds, so the check of a plan comes
to the sums of its images and to nothing else. -/
namespace DualBank

variable {σ τ : Type}

/-- The sum of the bytes, which no word has to hold. -/
def Bytes.total : Bytes → Nat
  | [] => 0
  | x :: b => x.toNat + total b

theorem Bytes.total_append (a b : Bytes) : total (a ++ b) = total a + total b := by
  induction a with
  | nil => exact (Nat.zero_add _).symm
  | cons x a ih => rw [List.cons_append, total, total, ih, Nat.add_assoc]

/-- The sum of the bytes from `offset` on. -/
def Chip.total (c : Chip) (offset len : Nat) : Nat :=
  ∑ i ∈ Finset.range len, (c.byte (offset + i)).toNat

theorem Checksum.of_eq (b : Bytes) : of b = .ofNat (Bytes.total b) := by
  induction b with
  | nil => rfl
  | cons x b ih =>
    calc of (x :: b) = 0 + x.toUInt32 + of b := add_eq (0 + x.toUInt32) b
      _ = .ofNat x.toNat + .ofNat (Bytes.total b) := by
        rw [UInt32.zero_add, ih, UInt32.ofNat_uInt8ToNat]
      _ = .ofNat (Bytes.total (x :: b)) := (UInt32.ofNat_add ..).symm

theorem Chip.total_read (c : Chip) (offset len : Nat) :
    Bytes.total (c.cells.read offset len) = c.total offset len := by
  induction len with
  | zero => rfl
  | succ len ih =>
    have hlast : Bytes.total (c.cells.read (offset + len) 1) = (c.byte (offset + len)).toNat := rfl
    rw [Cells.read_append, Bytes.total_append, ih, hlast, total, total, Finset.sum_range_succ]

namespace Plan

/-- A signature is there as a whole or not at all. -/
theorem Made.signatureLen {plan : Plan} (h : plan.Made) {p : Placement}
    (hp : p ∈ plan.placements) : p.signatureLen = 0 ∨ p.signatureLen = 8 := by
  cases h with
  | ofTarget h =>
    obtain ⟨_, _, _, primary, hprimary, _, hps⟩ := ofTarget_eq_ok h
    obtain rfl | ⟨s, _, rfl⟩ := mem_placements hps hp
    · exact .inr (Placement.ofPrimary_eq_ok hprimary).2.1
    · exact .inl rfl
  | ofBare h =>
    obtain ⟨rfl, _⟩ := validated_eq_ok h (by simp) ⟨_, rfl⟩ (by simp)
    rw [List.mem_singleton.1 hp]
    exact .inl rfl

end Plan

/-- The lengths and the signature in the summary are what the image has. -/
structure Summary.Reports (s : Summary) (p : Placement) : Prop where
  written : s.Matches p
  signature : p.role = .primary → (s.signature.isSome = true ↔ p.signatureLen = 8)

namespace Summary.Reports

variable {s : Summary} {p p' : Placement} {u : Uptake}

/-- What is noted of an image that is complete. -/
theorem of_complete (hu : u.Placed p) (hc : u.progress.isComplete = true) (s : Summary) :
    (s.record p.role u.progress).Reports p := by
  simp only [Progress.isComplete, Bool.and_eq_true, beq_iff_eq] at hc
  obtain ⟨hsig, hwritten⟩ := hc
  rw [hu.payloadLen] at hwritten
  refine ⟨?_, fun hrole => ?_⟩
  · unfold Matches
    cases hrole : p.role <;> simp [record, hwritten]
  · have height : p.signatureLen = 8 ↔ u.progress.signatureLen = Signature.length := by
      rw [hu.signatureLen, ← UInt32.toNat_inj]
      rfl
    rw [hrole, height]
    by_cases h8 : u.progress.signatureLen = Signature.length
    · have hlen : u.progress.signature.length = 8 := hsig.trans h8
      simp [record, Progress.signature?, h8, Signature.ofBytes?, hlen]
    · simp [record, Progress.signature?, h8]

/-- An image of another role changes nothing in it. -/
theorem record (h : s.Reports p) (hrole : p.role ≠ p'.role) (progress : Progress) :
    (s.record p'.role progress).Reports p := by
  obtain ⟨hwritten, hsig⟩ := h
  unfold Matches at hwritten
  cases hp : p.role <;> cases hp' : p'.role <;> simp only [hp, hp', ne_eq, not_true_eq_false,
    reduceCtorEq, not_false_eq_true] at hrole hwritten
  · exact ⟨by unfold Matches; rw [hp]; exact hwritten, hsig⟩
  · exact ⟨by unfold Matches; rw [hp]; exact hwritten, fun hr => by rw [hp] at hr; cases hr⟩

end Summary.Reports

namespace Rig

section
variable [Link σ] {a : Aperture} {plan : Plan} {r : Rig σ} {n : Nat} {l : Loop σ}

/-- Of every image that came before, the transfer has a true note. -/
theorem Reaches.reports (h : Reaches a plan r n l) (hw : plan.WellFormed)
    (hbuffer : r.buffer ≠ []) : ∃ before, plan.placements = before ++ l.image :: l.later ∧
      ∀ p ∈ before, l.summary.Reports p := by
  induction h with
  | start hp => exact ⟨[], hp, by simp⟩
  | turn _ _ _ ih => exact ih
  | @next n l p ps hl hu hp ih =>
    obtain ⟨before, hbefore, hnoted⟩ := ih
    refine ⟨before ++ [l.image], by rw [hbefore, hp, List.append_assoc]; rfl, fun p' hp' => ?_⟩
    rcases List.mem_append.1 hp' with hp' | hp'
    · have hroles := (List.pairwise_append.1 (hbefore ▸ hw.roles)).2.2
      exact (hnoted p' hp').record (hroles p' hp' _ List.mem_cons_self) _
    · rw [List.mem_singleton.1 hp']
      exact .of_complete (hl.paced hw hbuffer).placed hu _

/-- What a transfer answers is true of every image, whatever the connection said. -/
theorem transfer_reports (hplan : plan.Made) {s : Summary} {r' : Rig σ}
    (h : transfer a plan r = .ok s r') : ∀ p ∈ plan.placements, s.Reports p := by
  have hw := hplan.wellFormed
  have hbuffer : r.buffer ≠ [] := by
    rintro hnone
    have hfails : Ends (transfer a plan) r fun o _ => o = .error .invalidLayout :=
      Ends.get_bind (Ends.guard (fun _ => rfl) fun hb => absurd hnone hb)
    exact nomatch hfails.ok h
  obtain ⟨n, l, hl, hover, rfl, _⟩ := (transfer_reaches hplan.placements_ne_nil hbuffer).ok h
  -- The end of the last image counts as the step to one more.
  obtain ⟨before, hbefore, hnoted⟩ := hl.reports hw hbuffer
  rw [hover.1] at hbefore
  intro p hp
  rw [hbefore] at hp
  suffices hrecord : (l.summary.record l.image.role l.uptake.progress).Reports p from
    ⟨hrecord.written, hrecord.signature⟩
  rcases List.mem_append.1 hp with hp | hp
  · have hroles := (List.pairwise_append.1 (hbefore ▸ hw.roles)).2.2
    exact (hnoted p hp).record (hroles p hp _ List.mem_cons_self) _
  · rw [List.mem_singleton.1 hp]
    exact .of_complete (hl.paced hw hbuffer).placed hover.2 _

end

end Rig

/-- The payload has its place in flash, and an address for each of its bytes. -/
structure Placement.Lies (p : Placement) (a : Aperture) (c : Chip) : Prop where
  base_le : a.base.toNat ≤ p.destination.toNat
  within : p.destination.toNat + p.payloadLen.toNat ≤ a.base.toNat + c.size
  addressed : p.Addressed

/-- What the checksum of an image counts: its payload as it is in flash, and the signature if it has
one. -/
def Placement.totalIn (p : Placement) (a : Aperture) (c : Chip) (signature : Option Signature) :
    Nat :=
  c.total (p.destination.toNat - a.base.toNat) p.payloadLen.toNat +
    if p.signatureLen = 8 then Bytes.total (signature.elim [] Signature.bytes) else 0

theorem Placement.checksumIn_eq {p : Placement} {s : Summary} (h : s.Reports p)
    (hsigned : p.signatureLen ≠ 0 → p.role = .primary) (a : Aperture) (c : Chip) :
    p.checksumIn a c s.signature = .ofNat (p.totalIn a c s.signature) := by
  have hpayload := Checksum.of_eq (c.cells.read (p.destination.toNat - a.base.toNat)
    p.payloadLen.toNat)
  rw [Chip.total_read] at hpayload
  cases hrole : p.role with
  | secondary =>
    have hnone : p.signatureLen ≠ 8 := fun h8 => by
      have hprimary := hsigned (by rw [h8]; decide)
      rw [hrole] at hprimary
      cases hprimary
    simp only [checksumIn, totalIn, hrole, hpayload, if_neg hnone, Nat.add_zero]
  | primary =>
    have hsig := h.signature hrole
    cases hs : s.signature with
    | none =>
      have hnone : p.signatureLen ≠ 8 := fun h8 => by simp [hs, h8] at hsig
      simp only [checksumIn, totalIn, hrole, hpayload, if_neg hnone, Nat.add_zero]
    | some g =>
      have height : p.signatureLen = 8 := hsig.1 (by rw [hs]; rfl)
      simp only [checksumIn, totalIn, hrole, if_pos height, Option.elim_some, Checksum.add_eq,
        hpayload, Checksum.of_eq g.bytes, UInt32.ofNat_add]

/-- An image passes the check exactly if its checksum is the one that it was planned with. -/
theorem Placement.passes_iff_totalIn {p : Placement} {s : Summary} (h : s.Reports p)
    (hlen : p.signatureLen = 0 ∨ p.signatureLen = 8)
    (hsigned : p.signatureLen ≠ 0 → p.role = .primary) (a : Aperture) (c : Chip) :
    p.Passes a c s.signature ↔ .ofNat (p.totalIn a c s.signature) = p.expectedChecksum := by
  rw [Passes, checksumIn_eq h hsigned]
  refine and_iff_right fun hrole hne => ?_
  exact (h.signature hrole).2 (hlen.resolve_left hne)

namespace Rig

/-- The checksum of a region of flash is the sum of its bytes, through any buffer. The check of a
plan that was transferred, over whatever connection, accepts the images exactly if the sum of each
is the one that it was planned with, and finds nothing else wrong with them. Flash is only read. -/
theorem verify_exact [Link σ] {a : Aperture} {t : Rig τ} (hh : a.held = false)
    (hf : t.board.chip.Faultless) (hbuffer : t.buffer ≠ []) :
    (∀ address len : Word, a.base.toNat ≤ address.toNat →
      address.toNat + len.toNat ≤ UInt32.size →
      address.toNat - a.base.toNat + len.toNat ≤ t.board.chip.size →
      Ends (regionChecksum a address len) t fun o t' => t.board.Same t'.board ∧
        o = .ok (.ofNat (t.board.chip.total (address.toNat - a.base.toNat) len.toNat))) ∧
    ∀ (plan : Plan) (r r' : Rig σ) (s : Summary), plan.Made → transfer a plan r = .ok s r' →
      (∀ p ∈ plan.placements, p.Lies a t.board.chip) →
      (∀ p ∈ plan.placements, p.signatureLen = 8 → s.signature.isSome = true) ∧
      Ends (verify a s plan.placements) t fun o t' => t.board.Same t'.board ∧
        (o = .ok () ∨ o = .error .checksumMismatch) ∧
        (o = .ok () ↔ ∀ p ∈ plan.placements,
          .ofNat (p.totalIn a t.board.chip s.signature) = p.expectedChecksum) := by
  refine ⟨fun address len hbase haddress hlen => ?_, fun plan r r' s hplan ht hlies => ?_⟩
  · have ho : a.offset address = .ok (address.toNat - a.base.toNat) :=
      Aperture.offset_eq_ok.2 (Nat.add_sub_of_le hbase)
    refine (regionChecksum_ends hf hh ho hbuffer haddress hlen).mono fun o t' h => ?_
    obtain ⟨hsum, hsame, _⟩ := h
    rw [Checksum.of_eq, Chip.total_read] at hsum
    exact ⟨hsame, hsum⟩
  · have hreports := transfer_reports hplan ht
    refine ⟨fun p hp h8 => ?_, ?_⟩
    · have hrole := hplan.signed hp (by rw [h8]; decide)
      exact ((hreports p hp).signature hrole).2 h8
    · refine (verify_ends hf hh (fun p hp => (hlies p hp).addressed) hbuffer
        (fun p hp => (hlies p hp).base_le) (fun p hp => (hlies p hp).within)
        fun p hp => (hreports p hp).written).mono fun o t' h => ⟨h.1, ?_⟩
      have hall : (∀ p ∈ plan.placements, p.Passes a t.board.chip s.signature) ↔
          ∀ p ∈ plan.placements,
            .ofNat (p.totalIn a t.board.chip s.signature) = p.expectedChecksum :=
        forall₂_congr fun p hp => Placement.passes_iff_totalIn (hreports p hp)
          (hplan.signatureLen hp) (hplan.signed hp) a t.board.chip
      rw [← hall]
      obtain ⟨hpass, rfl⟩ | ⟨hfail, rfl⟩ := h.2
      · exact ⟨.inl rfl, iff_of_true rfl hpass⟩
      · exact ⟨.inr rfl, iff_of_false (fun he => nomatch he) hfail⟩

end Rig

theorem Rig.verify_exact_sample : ∃ s r',
    transfer { base := 0 } Sample.containerPlan Sample.streaming = .ok s r' ∧
    Sample.streaming.board.chip.Faultless ∧ Sample.streaming.buffer ≠ [] ∧
    (∀ p ∈ Sample.containerPlan.placements, p.Lies { base := 0 } Sample.streaming.board.chip) ∧
    Ends (verify { base := 0 } s Sample.containerPlan.placements) Sample.streaming fun o t' =>
      Sample.streaming.board.Same t'.board ∧ (o = .ok () ∨ o = .error .checksumMismatch) ∧
      (o = .ok () ↔ ∀ p ∈ Sample.containerPlan.placements,
        .ofNat (p.totalIn { base := 0 } Sample.streaming.board.chip s.signature) =
          p.expectedChecksum) := by
  have hserves : Link.Serves Sample.streaming.link (Sample.container.drop 56) :=
    Scripted.serves (by simp [Sample.streaming, Sample.rig]) rfl
  have hbuffer : Sample.streaming.buffer ≠ [] := by decide
  have hreached : Sample.containerPlan.ReachedBy Sample.container := by
    intro p hp
    cases hp
    decide
  have hcarries := transfer_carries_of_le Sample.containerPlan_made hserves (by decide) hbuffer
    Sample.addressed_container fun _ => Sample.accepts_container
  cases ht : transfer { base := 0 } Sample.containerPlan Sample.streaming with
  | error e r' => exact absurd hreached (hcarries.error ht).2.1
  | ok s r' =>
    have hlies : ∀ p ∈ Sample.containerPlan.placements,
        p.Lies { base := 0 } Sample.streaming.board.chip := by
      have haddressed := Sample.addressed_container
      simp only [Sample.containerPlan, List.forall_mem_cons] at haddressed ⊢
      exact ⟨⟨by decide, by decide, haddressed.1⟩, ⟨by decide, by decide, haddressed.2.1⟩, by simp⟩
    have hf : Sample.streaming.board.chip.Faultless := fun _ _ => rfl
    exact ⟨s, r', rfl, hf, hbuffer, hlies,
      ((verify_exact rfl hf hbuffer).2 _ _ _ _ Sample.containerPlan_made ht hlies).2⟩

end DualBank
