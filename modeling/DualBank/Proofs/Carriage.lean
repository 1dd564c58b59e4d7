import DualBank.Proofs.Iteration
import DualBank.Proofs.Order
import DualBank.Proofs.Pieces
import DualBank.Proofs.Soundness

/-! What a transfer over an honest connection comes to, into any flash that takes the writes. The
invariant of the loop ties the pieces that were written to the position in the stream. -/
namespace DualBank

variable {σ : Type}

theorem Bytes.drop_congr {D D' : Bytes} {q n : Nat} (h : D.drop q = D'.drop q) (hq : q ≤ n) :
    D.drop n = D'.drop n := by
  rw [← Nat.add_sub_cancel' hq, ← List.drop_drop, ← List.drop_drop, h]

namespace Plan

/-- The stream reaches to the end of the last image that is not empty. -/
def ReachedBy (plan : Plan) (D : Bytes) : Prop :=
  ∀ p, lastOf? plan.placements = some p → p.streamStop ≤ D.length

theorem WellFormed.reached {plan : Plan} (hw : plan.WellFormed) {D : Bytes}
    (h : plan.ReachedBy D) {p : Placement} (hp : p ∈ plan.placements) :
    p.span = 0 ∨ p.streamStop ≤ D.length := by
  by_cases hspan : p.span = 0
  · exact .inl hspan
  · obtain ⟨z, hz, hle⟩ := hw.ordered.streamStop_le hp hspan
    exact .inr (Nat.le_trans hle (h z hz))

/-- Only a primary image has a signature. -/
theorem Made.signed {plan : Plan} (h : plan.Made) {p : Placement} (hp : p ∈ plan.placements)
    (hs : p.signatureLen ≠ 0) : p.role = .primary := by
  cases h with
  | @ofTarget t _ _ _ _ h =>
    obtain ⟨_, _, _, primary, hprimary, _, hps⟩ := ofTarget_eq_ok h
    obtain rfl | ⟨s, _, rfl⟩ := mem_placements hps hp
    · exact (Placement.ofPrimary_eq_ok hprimary).1
    · exact absurd rfl hs
  | ofBare h =>
    obtain ⟨z, hz⟩ := (ofBare_eq_ok h).1.primary
    obtain ⟨p', hp', _⟩ := placements_ofBare h
    have hmem := List.mem_of_find?_eq_some hz
    rw [hp', List.mem_singleton] at hp hmem
    rw [hp, ← hmem]
    simpa using List.find?_some hz

end Plan

/-- What a transfer notes that brought all of the images of a plan. -/
structure Summary.Complete (s : Summary) (plan : Plan) (D : Bytes) : Prop where
  lengths : ∀ p ∈ plan.placements, s.Matches p
  /-- The signature is the first eight bytes of the image that has one. -/
  signature : ∀ p ∈ plan.placements, p.signatureLen = 8 →
    ∃ g : Signature, s.signature = some g ∧ g.bytes = (D.drop p.streamOffset.toNat).take 8
  unsigned : (∀ p ∈ plan.placements, p.signatureLen ≠ 8) → s.signature = none
  received : s.received = plan.streamStop

theorem Summary.noted_foldl {D : Bytes} {ps : List Placement}
    (hr : ps.Pairwise fun p p' => p.role ≠ p'.role) (s : Summary) :
    ∀ p ∈ ps, (ps.foldl (Summary.take D) s).Noted D p := by
  have hkept : ∀ (ps : List Placement) (s : Summary) (p : Placement),
      (∀ p' ∈ ps, p.role ≠ p'.role) → s.Noted D p → (ps.foldl (Summary.take D) s).Noted D p := by
    intro ps
    induction ps with
    | nil => exact fun _ _ _ h => h
    | cons p' ps ih =>
      exact fun s p hp h => ih _ p (fun p'' hp'' => hp p'' (List.mem_cons_of_mem _ hp''))
        (h.take (hp p' List.mem_cons_self).symm)
  induction ps generalizing s with
  | nil => simp
  | cons p ps ih =>
    obtain ⟨hpr, hpsr⟩ := List.pairwise_cons.1 hr
    intro p' hp'
    rcases List.mem_cons.1 hp' with rfl | hp'
    · exact hkept ps _ _ hpr (s.noted_take D _)
    · exact ih hpsr _ p' hp'

/-- Only the bytes after the header block matter. -/
theorem Plan.WellFormed.payloadOf_congr {plan : Plan} (hw : plan.WellFormed) {D D' : Bytes}
    (h : D.drop plan.streamStart.toNat = D'.drop plan.streamStart.toNat) {p : Placement}
    (hp : p ∈ plan.placements) : p.payloadOf D = p.payloadOf D' := by
  have hq := hw.ordered.le_streamOffset p hp
  rw [Placement.payloadOf, Placement.payloadOf,
    Bytes.drop_congr h (by simp only [Placement.payloadStart]; omega)]

theorem Summary.Complete.congr {s : Summary} {plan : Plan} {D D' : Bytes} (h : s.Complete plan D)
    (hw : plan.WellFormed)
    (hD : D.drop plan.streamStart.toNat = D'.drop plan.streamStart.toNat) : s.Complete plan D' where
  lengths := h.lengths
  signature p hp hlen := by
    obtain ⟨g, hg, hbytes⟩ := h.signature p hp hlen
    exact ⟨g, hg, hbytes.trans
      (congrArg (·.take 8) (Bytes.drop_congr hD (hw.ordered.le_streamOffset p hp)))⟩
  unsigned := h.unsigned
  received := h.received

/-- What is noted of every image makes the summary. -/
theorem Plan.Made.complete {plan : Plan} (h : plan.Made) {D : Bytes} {s : Summary}
    (hs : ∀ p ∈ plan.placements, s.Noted D p) (hD : plan.ReachedBy D)
    (hreceived : s.received = plan.streamStop) : s.Complete plan D where
  lengths p hp := (hs p hp).matches
  signature p hp hlen := by
    have hrole := h.signed hp (by rw [hlen]; decide)
    have hlength := Placement.length_signatureOf_of_le (h.wellFormed.reached hD hp)
    have height : p.signatureLen.toNat = Signature.length := by rw [hlen]; rfl
    have hsome : p.signatureOf? D = some ⟨p.signatureOf D, hlength.trans height⟩ := by
      rw [Placement.signatureOf?, if_pos height, Signature.ofBytes?_eq_some]
    refine ⟨_, ((hs p hp).signature hrole).trans hsome, ?_⟩
    change p.signatureOf D = _
    rw [Placement.signatureOf, height, Signature.length]
  unsigned hnone := by
    obtain ⟨p, hp⟩ := h.wellFormed.primary
    have hmem := List.mem_of_find?_eq_some hp
    rw [(hs p hmem).signature (by simpa using List.find?_some hp), Placement.signatureOf?, if_neg]
    exact fun height => hnone p hmem (UInt32.toNat_inj.1 height)
  received := hreceived

namespace Rig

variable [Link σ]

/-- The invariant of the loop over an honest connection that brings `D`. The images `before` came
through as `ws`, and of the image at hand came `bs`. -/
structure Carrying (a : Aperture) (D : Bytes) (plan : Plan) (r : Rig σ) (before : List Placement)
    (ws : List (Nat × Bytes)) (bs : List Bytes) (l : Loop σ) : Prop where
  placements : plan.placements = before ++ l.image :: l.later
  summary : l.summary = before.foldl (Summary.take D) {}
  passed : ∀ p ∈ before, p.span ≠ 0 → p.streamStop ≤ l.uptake.position
  carried : Plan.Carried D before ws
  pending : l.rig.Pending l.uptake.window (D.drop l.uptake.position)
  buffer : l.rig.buffer ≠ []
  sound : l.uptake.Sound l.image D
  laying : Laying a D plan r.board ws l.image bs l.uptake.position l.rig.board

section
variable {a : Aperture} {D : Bytes} {plan : Plan} {r : Rig σ} {before : List Placement}
  {ws : List (Nat × Bytes)} {bs : List Bytes} {l : Loop σ}

/-- The payload bytes among the next `len` of the stream are written in one piece. -/
theorem Carrying.deposit (h : Carrying a D plan r before ws bs l) (hs : l.image.Addressed)
    {r₁ : Rig σ} (hchip : r₁.board.chip = l.rig.board.chip) (hsilent : Silent l.rig.board r₁.board)
    {len : Nat} (hfit : l.uptake.position + len ≤ D.length) :
    let cut := l.uptake.progress.cut l.uptake.position len
    Ends (Rig.deposit a l.image cut ((D.drop l.uptake.position).take len)) r₁ fun o r₂ =>
      r₂.link = r₁.link ∧ r₂.buffer = r₁.buffer ∧ o = .ok () ∧ ∃ bs',
        Laying a D plan r.board ws l.image bs' (l.uptake.position + cut.stop) r₂.board := by
  intro cut
  have hlaid := h.laying.silent hchip.symm hsilent
  obtain ⟨hlength, hnext⟩ := h.sound.payloadUpTo_feed len
  have hchunk : ((D.drop l.uptake.position).take len).length = len := by
    rw [List.length_take, List.length_drop]
    omega
  have hstart : cut.start ≤ cut.stop := l.uptake.progress.cut_start_le l.uptake.position len
  have hstop : cut.stop ≤ len := l.uptake.progress.cut_stop_le l.uptake.position len
  have hoffset : cut.flashOffset = l.uptake.progress.written := rfl
  have hq : l.uptake.position + cut.stop ≤ l.image.streamStop := by
    have hcut : cut.stop = min len (l.image.streamStop - l.uptake.position) :=
      (h.sound.placed.cut len).2.1
    have hle := h.sound.position_le_stop
    omega
  refine deposit_ends (Q := fun o b' => o = .ok () ∧ ∃ bs',
    Laying a D plan r.board ws l.image bs' (l.uptake.position + cut.stop) b')
    hstart (hchunk.symm ▸ hstop) (fun hnone => ?_) fun hsome => ?_
  · have hsame : l.image.payloadUpTo D (l.uptake.position + cut.stop) =
        l.image.payloadUpTo D l.uptake.position := by
      rw [hnext, hnone, Nat.sub_self, List.take_zero, List.append_nil]
    exact ⟨rfl, bs, hlaid.nonempty, hlaid.payload.trans hsame.symm, hlaid.does, hlaid.accepts⟩
  · have hpiece : (((D.drop l.uptake.position).take len).drop cut.start).take
        (cut.stop - cut.start) ≠ [] := by
      refine List.length_pos_iff.1 ?_
      rw [List.length_take, List.length_drop]
      omega
    obtain ⟨address, hword, hwritten⟩ := hlaid.write h.placements h.carried hs hpiece hq hnext
    rw [hoffset, ← hlength, hword]
    exact hwritten.mono fun o b' hb => ⟨hb.1, _, hb.2⟩

/-- A turn writes the payload bytes it got. It fails only for want of bytes. -/
theorem Carrying.step (h : Carrying a D plan r before ws bs l) (hs : l.image.Addressed)
    (hu : l.uptake.progress.isComplete = false) :
    Ends (step a l.image l.uptake hu) l.rig fun o r' => ∃ bs',
      match o with
      | .ok v => Carrying a D plan r before ws bs' { l with uptake := v.val, rig := r' }
      | .error e => e = .streamTruncated ∧ l.uptake.position = D.length ∧
          Laying a D plan r.board ws l.image bs' l.uptake.position r'.board := by
  refine step_serves h.pending h.buffer h.sound.position_le hu
    (P := fun r₁ => r₁.board.chip = l.rig.board.chip ∧ Silent l.rig.board r₁.board)
    (((refill_reads _ l.rig).mono fun _ _ h => h.1).and (Quiet.refill _ l.rig))
    (fun r₁ hquiet _ hend => ⟨bs, rfl, hend, h.laying.silent hquiet.1.symm hquiet.2⟩)
    fun r₁ w len hquiet _ hbuffer hpending hlen hfit => ?_
  refine (h.deposit hs hquiet.1 hquiet.2 hfit).mono fun o r₂ hdone => ?_
  obtain ⟨hlink, hbuf, rfl, bs', hlaid⟩ := hdone
  intro v hv
  have hchunk : ((D.drop l.uptake.position).take len).length = len := by
    rw [List.length_take, List.length_drop]
    omega
  have hcut : (l.uptake.progress.cut l.uptake.position len).stop ≤ w.stop - w.start :=
    hlen ▸ l.uptake.progress.cut_stop_le _ _
  have hadvance := (hpending.advance hcut).congr hlink hbuf
  rw [List.drop_drop] at hadvance
  have hpos : v.val.position =
      l.uptake.position + (l.uptake.progress.cut l.uptake.position len).stop := by
    rw [hv]
    simp only [Uptake.feed, Cut.consumed, hchunk]
  have hwindow : v.val.window = w.advance (l.uptake.progress.cut l.uptake.position len).stop := by
    rw [hv]
    simp only [Uptake.feed, Cut.consumed, hchunk]
  refine ⟨bs', h.placements, h.summary, fun p hp hspan => ?_, h.carried, ?_, hbuf ▸ hbuffer, ?_, ?_⟩
  · have hle := h.passed p hp hspan
    dsimp only
    omega
  · dsimp only
    rw [hpos, hwindow]
    exact hadvance
  · dsimp only
    rw [hv]
    exact ((h.sound.window w).feed hfit).1
  · dsimp only
    rw [hpos]
    exact hlaid

/-- The next image starts with what is left of the window. -/
theorem Carrying.next (h : Carrying a D plan r before ws bs l) (hw : plan.WellFormed)
    (hu : l.uptake.progress.isComplete = true) {p : Placement} {ps : List Placement}
    (hp : l.later = p :: ps) :
    Carrying a D plan r (before ++ [l.image]) (ws ++ l.image.pieces 0 bs) []
      ⟨p, ps, l.summary.record l.image.role l.uptake.progress,
        { l.uptake with progress := .start p }, l.rig⟩ := by
  have hplan : plan.placements = (before ++ [l.image]) ++ p :: ps := by
    rw [h.placements, hp, List.append_cons]
  obtain ⟨_, hordered⟩ := (h.placements ▸ hw.ordered).append
  have hpq : l.uptake.position ≤ p.streamOffset.toNat :=
    Nat.le_trans h.sound.position_le_stop (hp ▸ hordered.2).1
  have hmem : p ∈ plan.placements := hplan ▸ List.mem_append_right _ List.mem_cons_self
  have hpayload := h.laying.payload.trans (h.sound.complete hu).2.2
  refine ⟨hplan, ?_, fun p' hp' hspan => ?_, h.carried.snoc h.laying.nonempty hpayload, h.pending,
    h.buffer, Uptake.sound_start (hw.fits p hmem) hpq h.sound.position_le _, by simp, ?_, ?_, ?_⟩
  · rw [h.sound.record hu, h.summary, List.foldl_append]
    rfl
  · rcases List.mem_append.1 hp' with hp' | hp'
    · exact h.passed p' hp' hspan
    · obtain rfl := List.mem_singleton.1 hp'
      rcases h.sound.placed.isComplete.1 hu with hempty | hend
      · exact absurd hempty hspan
      · exact Nat.le_of_eq hend.symm
  · have hnone : l.uptake.position - p.payloadStart = 0 := by
      simp only [Placement.payloadStart]
      omega
    rw [Placement.payloadUpTo, hnone, List.take_zero]
    rfl
  · rw [Placement.pieces, List.append_nil]
    exact h.laying.does
  · rw [Placement.pieces, List.append_nil]
    exact h.laying.accepts

theorem Reaches.carrying {n : Nat} (h : Reaches a plan r n l) (hw : plan.WellFormed)
    (hserves : Link.Serves r.link (D.drop plan.streamStart.toNat))
    (hq : plan.streamStart.toNat ≤ D.length) (hbuffer : r.buffer ≠ [])
    (hs : ∀ p ∈ plan.placements, p.Addressed)
    (hflash : ∀ ws, Plan.Carried D plan.placements ws → a.Accepts r.board ws) :
    ∃ before ws bs, Carrying a D plan r before ws bs l := by
  induction h with
  | @start p ps hp =>
    have hmem : p ∈ plan.placements := hp ▸ List.mem_cons_self
    have hpq := hw.ordered.le_streamOffset p hmem
    have hnone : plan.streamStart.toNat - p.payloadStart = 0 := by
      simp only [Placement.payloadStart]
      omega
    refine ⟨[], [], [], hp, rfl, by simp, .nil, ⟨_, hserves, Nat.le_refl _, Nat.zero_le _, by simp⟩,
      hbuffer, Uptake.sound_start (hw.fits p hmem) hpq hq _, by simp, ?_, .refl _, hflash⟩
    rw [Placement.payloadUpTo, hnone, List.take_zero]
    rfl
  | @turn n l v r' hl hu hv ih =>
    obtain ⟨before, ws, bs, hc⟩ := ih
    obtain ⟨bs', hc'⟩ := (hc.step (hs _ hl.mem) hu).ok hv
    exact ⟨before, ws, bs', hc'⟩
  | next hl hu hp ih =>
    obtain ⟨before, ws, bs, hc⟩ := ih
    exact ⟨_, _, _, hc.next hw hu hp⟩

/-- What was written in the end, if the stream has nothing for the images that are left. -/
theorem Carrying.carried_all (h : Carrying a D plan r before ws bs l) {b : Board}
    {bs' : List Bytes} (hlaid : Laying a D plan r.board ws l.image bs' l.uptake.position b)
    (himage : l.image.payloadUpTo D l.uptake.position = l.image.payloadOf D)
    (hlater : ∀ p ∈ l.later, p.payloadOf D = []) :
    ∃ ws, Plan.Carried D plan.placements ws ∧ Does (ws.map a.call) r.board b := by
  have hall := (h.carried.snoc hlaid.nonempty (hlaid.payload.trans himage)).append
    (.of_nothing hlater)
  rw [List.append_nil, ← List.append_cons, ← h.placements] at hall
  exact ⟨_, hall, hlaid.does⟩

theorem Carrying.of_over (h : Carrying a D plan r before ws bs l) (hplan : plan.Made)
    (hover : l.Over) (hle : l.uptake.position ≤ plan.streamStop)
    (hstart : plan.streamStart.toNat ≤ l.uptake.position) :
    plan.ReachedBy D ∧ l.total.Complete plan D := by
  have hw := hplan.wellFormed
  have hplacements : plan.placements = before ++ [l.image] := by rw [h.placements, hover.1]
  have hpassed : ∀ p ∈ plan.placements, p.span ≠ 0 → p.streamStop ≤ l.uptake.position := by
    intro p hp hspan
    rw [hplacements] at hp
    rcases List.mem_append.1 hp with hp | hp
    · exact h.passed p hp hspan
    · obtain rfl := List.mem_singleton.1 hp
      rcases h.sound.placed.isComplete.1 hover.2 with hempty | hend
      · exact absurd hempty hspan
      · exact Nat.le_of_eq hend.symm
  have hreached : plan.ReachedBy D := fun p hp =>
    Nat.le_trans (hpassed p (Plan.mem_of_lastOf? hp).1 (Plan.mem_of_lastOf? hp).2)
      h.sound.position_le
  have hposition : l.uptake.position = plan.streamStop := by
    refine Nat.le_antisymm hle ?_
    unfold Plan.streamStop
    split
    · rename_i p hp
      exact hpassed p (Plan.mem_of_lastOf? hp).1 (Plan.mem_of_lastOf? hp).2
    · exact hstart
  refine ⟨hreached, hplan.complete (fun p hp => ?_) hreached hposition⟩
  have hnoted := Summary.noted_foldl (D := D) hw.roles {} p hp
  rw [hplacements, List.foldl_append, ← h.summary, List.foldl_cons, List.foldl_nil,
    ← h.sound.record hover.2] at hnoted
  exact hnoted

/-- The transfer of a stream that has the header block. -/
theorem transfer_carries_of_le (hplan : plan.Made)
    (hserves : Link.Serves r.link (D.drop plan.streamStart.toNat))
    (hq : plan.streamStart.toNat ≤ D.length) (hbuffer : r.buffer ≠ [])
    (hs : ∀ p ∈ plan.placements, p.Addressed)
    (hflash : ∀ ws, Plan.Carried D plan.placements ws → a.Accepts r.board ws) :
    Ends (transfer a plan) r fun o r' =>
      (∃ ws, Plan.Carried D plan.placements ws ∧ Does (ws.map a.call) r.board r'.board) ∧
      match o with
      | .ok s => plan.ReachedBy D ∧ s.Complete plan D
      | .error e => ¬plan.ReachedBy D ∧ e = .streamTruncated := by
  have hw := hplan.wellFormed
  refine (transfer_reaches hplan.placements_ne_nil hbuffer).mono fun o r' hend => ?_
  obtain ⟨n, l, hl, ho⟩ := hend
  have hpaced := hl.paced hw hbuffer
  obtain ⟨before, ws, bs, hc⟩ := hl.carrying hw hserves hq hbuffer hs hflash
  cases o with
  | ok s =>
    obtain ⟨hover, rfl, rfl⟩ := ho
    refine ⟨hc.carried_all hc.laying (hc.sound.complete hover.2).2.2 (by simp [hover.1]), ?_⟩
    exact hc.of_over hplan hover hpaced.position_le (Nat.le_trans (by omega) hpaced.le_position)
  | error e =>
    obtain ⟨hu, hfailed⟩ := ho
    obtain ⟨bs', he, hend, hlaid⟩ := (hc.step (hs _ hl.mem) hu).error hfailed
    have hlater := (hl.ordered hw).le_streamOffset
    have hstop := hc.sound.position_le_stop
    have hincomplete : ¬(l.image.span = 0 ∨ l.uptake.position = l.image.streamStop) := fun h => by
      rw [hc.sound.placed.isComplete.2 h] at hu
      cases hu
    refine ⟨hc.carried_all hlaid (hc.sound.payloadUpTo_short hend) fun p hp => ?_, fun hD => ?_, he⟩
    · exact Placement.payloadOf_eq_nil (Nat.le_trans (by omega) (hlater p hp))
    · have hreached := hw.reached hD hl.mem
      omega

/-- A transfer over an honest connection, into flash that takes the writes. It loses no byte of a
payload, writes none twice and none elsewhere, whether the stream has all of them or not, and it
succeeds exactly if the stream reaches to the end of the last image. -/
theorem transfer_carries (hplan : plan.Made)
    (hserves : Link.Serves r.link (D.drop plan.streamStart.toNat)) (hbuffer : r.buffer ≠ [])
    (hs : ∀ p ∈ plan.placements, p.Addressed)
    (hflash : ∀ ws, Plan.Carried D plan.placements ws → a.Accepts r.board ws) :
    Ends (transfer a plan) r fun o r' =>
      (∃ ws, Plan.Carried D plan.placements ws ∧ Does (ws.map a.call) r.board r'.board) ∧
      match o with
      | .ok s => plan.ReachedBy D ∧ s.Complete plan D ∧
          ∀ p ∈ plan.placements, (p.payloadOf D).length = p.payloadLen.toNat
      | .error e => ¬plan.ReachedBy D ∧ e = .streamTruncated := by
  have hw := hplan.wellFormed
  -- A stream that ends within the header block has nothing after it, as one that ends right there.
  obtain ⟨C, hC, hq, hlong⟩ : ∃ C : Bytes,
      C.drop plan.streamStart.toNat = D.drop plan.streamStart.toNat ∧
      plan.streamStart.toNat ≤ C.length ∧ C.length = max D.length plan.streamStart.toNat := by
    refine ⟨D ++ List.replicate (plan.streamStart.toNat - D.length) 0, ?_, ?_, ?_⟩
    · by_cases hle : plan.streamStart.toNat ≤ D.length
      · rw [Nat.sub_eq_zero_of_le hle, List.replicate_zero, List.append_nil]
      · rw [List.drop_eq_nil_of_le, List.drop_eq_nil_of_le (by omega)]
        rw [List.length_append, List.length_replicate]
        omega
    · rw [List.length_append, List.length_replicate]
      omega
    · rw [List.length_append, List.length_replicate]
      omega
  have hreached : plan.ReachedBy C ↔ plan.ReachedBy D := by
    refine forall₂_congr fun p hp => ?_
    obtain ⟨hmem, hspan⟩ := Plan.mem_of_lastOf? hp
    have hpq := hw.ordered.le_streamOffset p hmem
    simp only [Placement.streamStop]
    omega
  refine (transfer_carries_of_le hplan (hC ▸ hserves) hq hbuffer hs fun ws hws =>
    hflash ws (hws.congr fun p hp => hw.payloadOf_congr hC hp)).mono fun o r' hend => ?_
  obtain ⟨⟨ws, hws, hdoes⟩, ho⟩ := hend
  refine ⟨⟨ws, hws.congr fun p hp => hw.payloadOf_congr hC hp, hdoes⟩, ?_⟩
  cases o with
  | ok s =>
    have hD := hreached.1 ho.1
    exact ⟨hD, ho.2.congr hw hC, fun p hp => Placement.length_payloadOf_of_le (hw.reached hD hp)⟩
  | error e => exact ⟨mt hreached.2 ho.1, ho.2⟩

end

end Rig

namespace Sample

/-- Where the images of the container go, for bank 1. -/
def containerPlan : Plan where
  placements := [⟨.primary, .ota1, 8, 2, 56, 8, 55⟩, ⟨.secondary, .rdp, 0x2000, 3, 66, 0, 36⟩]
  streamStart := 56
  targetBank := .bank1

theorem containerPlan_made : containerPlan.Made :=
  .ofTarget (by rfl : Plan.ofTarget header .bank1 0 0x2000 = _)

/-- The connection is past the header block, and the buffer takes three bytes. -/
def streaming : Rig Scripted :=
  { rig (container.drop 56) with buffer := [0, 0, 0] }

theorem addressed_container : ∀ p ∈ containerPlan.placements, p.Addressed := by
  simp only [containerPlan, List.forall_mem_cons, Placement.Addressed]
  decide

/-- The chip is erased. -/
theorem accepts_container {ws : List (Nat × Bytes)}
    (h : Plan.Carried container containerPlan.placements ws) :
    Aperture.Accepts { base := 0 } streaming.board ws := by
  have herased : ∀ i, streaming.board.chip.byte i = erasedByte := fun _ => rfl
  refine Aperture.accepts_of_clear (fun _ _ => rfl) rfl addressed_container ?_ ?_ h
  · simp only [containerPlan, List.forall_mem_cons]
    exact ⟨⟨by decide, by decide, fun i _ => herased i⟩,
      ⟨by decide, by decide, fun i _ => herased i⟩, by simp⟩
  · refine List.pairwise_pair.2 fun n hn => ?_
    obtain ⟨⟨_, hhi⟩, ⟨hlo, _⟩⟩ := hn
    have hfirst : n < 8 + 2 := hhi
    have hsecond : 0x2000 - 0 ≤ n := hlo
    omega

end Sample

theorem Rig.transfer_carries_sample : Sample.containerPlan.Made ∧
    Link.Serves Sample.streaming.link (Sample.container.drop 56) ∧ Sample.streaming.buffer ≠ [] ∧
    (∀ p ∈ Sample.containerPlan.placements, p.Addressed) ∧
    (∀ ws, Plan.Carried Sample.container Sample.containerPlan.placements ws →
      Aperture.Accepts { base := 0 } Sample.streaming.board ws) ∧
    Ends (transfer { base := 0 } Sample.containerPlan) Sample.streaming fun o r' =>
      (∃ ws, Plan.Carried Sample.container Sample.containerPlan.placements ws ∧
        Does (ws.map (Aperture.call { base := 0 })) Sample.streaming.board r'.board) ∧
      match o with
      | .ok s => Sample.containerPlan.ReachedBy Sample.container ∧
          s.Complete Sample.containerPlan Sample.container ∧
          ∀ p ∈ Sample.containerPlan.placements,
            (p.payloadOf Sample.container).length = p.payloadLen.toNat
      | .error e => ¬Sample.containerPlan.ReachedBy Sample.container ∧ e = .streamTruncated := by
  have hserves : Link.Serves Sample.streaming.link (Sample.container.drop 56) :=
    Scripted.serves (by simp [Sample.streaming, Sample.rig]) rfl
  have hbuffer : Sample.streaming.buffer ≠ [] := by decide
  exact ⟨Sample.containerPlan_made, hserves, hbuffer, Sample.addressed_container,
    fun _ => Sample.accepts_container, transfer_carries Sample.containerPlan_made hserves hbuffer
      Sample.addressed_container fun _ => Sample.accepts_container⟩

end DualBank
