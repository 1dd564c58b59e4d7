import DualBank.Proofs.Delivery

/-! The turns of a transfer, whatever the connection says. It may fail, report counts that are not
true, or never come to an end. Each turn uses up a byte of the stream at least, and the images of a
plan end somewhere, so there are only so many turns. -/
namespace DualBank

variable {σ : Type}

namespace Plan

/-- The plans that there are: for a container, or for a bare image. -/
inductive Made : Plan → Prop
  | ofTarget {t : TargetHeader} {bank : Bank} {address secondaryAddress : Word} {plan : Plan}
      (h : Plan.ofTarget t bank address secondaryAddress = .ok plan) : Made plan
  | ofBare {bank : Bank} {address len checksum : Word} {plan : Plan}
      (h : Plan.ofBare bank address len checksum = .ok plan) : Made plan

theorem Made.wellFormed {plan : Plan} (h : plan.Made) : plan.WellFormed := by
  cases h with
  | ofTarget h => exact (ofTarget_eq_ok h).1
  | ofBare h => exact (ofBare_eq_ok h).1

theorem Made.placements_ne_nil {plan : Plan} (h : plan.Made) : plan.placements ≠ [] := by
  obtain ⟨p, hp⟩ := h.wellFormed.primary
  exact List.ne_nil_of_mem (List.mem_of_find?_eq_some hp)

/-- The last of the images that are not empty. -/
def lastOf? (ps : List Placement) : Option Placement := (ps.filter (·.span ≠ 0)).getLast?

/-- Stream position one past the last image that is not empty. -/
def streamStop (plan : Plan) : Nat :=
  match lastOf? plan.placements with
  | some p => p.streamStop
  | none => plan.streamStart.toNat

theorem mem_of_lastOf? {ps : List Placement} {p : Placement} (h : lastOf? ps = some p) :
    p ∈ ps ∧ p.span ≠ 0 := by
  have hp := List.mem_filter.1 (List.mem_of_getLast? h)
  exact ⟨hp.1, by simpa using hp.2⟩

theorem Ordered.append {q : Nat} {ps ps' : List Placement} (h : Ordered q (ps ++ ps')) :
    ∃ q', Ordered q' ps' := by
  induction ps generalizing q with
  | nil => exact ⟨q, h⟩
  | cons p ps ih => exact ih h.2

/-- No image ends later than the last one that is not empty. -/
theorem Ordered.streamStop_le {q : Nat} {ps : List Placement} (h : Ordered q ps) {p : Placement}
    (hp : p ∈ ps) (hspan : p.span ≠ 0) :
    ∃ z, lastOf? ps = some z ∧ p.streamStop ≤ z.streamStop := by
  obtain ⟨before, after, rfl⟩ := List.append_of_mem hp
  obtain ⟨q', hq'⟩ := h.append
  have hfilter : lastOf? (before ++ p :: after) =
      some ((lastOf? after).getD p) := by
    simp [lastOf?, hspan, List.getLast?_append, List.getLast?_cons]
  refine ⟨_, hfilter, ?_⟩
  cases hz : lastOf? after with
  | none => exact Nat.le_refl _
  | some z =>
    have hle := hq'.2.le_streamOffset z (mem_of_lastOf? hz).1
    simp only [Option.getD_some]
    simp only [Placement.streamStop] at hle ⊢
    omega

namespace WellFormed

variable {plan : Plan}

theorem streamStop_le (h : plan.WellFormed) {p : Placement} (hp : p ∈ plan.placements)
    (hspan : p.span ≠ 0) : p.streamStop ≤ plan.streamStop := by
  obtain ⟨z, hz, hle⟩ := h.ordered.streamStop_le hp hspan
  rwa [streamStop, hz]

theorem streamStart_le (h : plan.WellFormed) : plan.streamStart.toNat ≤ plan.streamStop := by
  unfold streamStop
  split
  · rename_i p hp
    have hle := h.ordered.le_streamOffset p (mem_of_lastOf? hp).1
    simp only [Placement.streamStop]
    omega
  · exact Nat.le_refl _

end WellFormed
end Plan

/-- An address has an offset, unless it is below the base. -/
theorem Aperture.offset_eq_error {a : Aperture} {address : Word} {e : UpdateError}
    (h : a.offset address = .error e) : e = .invalidAddress ∧ address.toNat < a.base.toNat := by
  refine ⟨?_, Nat.lt_of_not_le fun hle => ?_⟩
  · unfold offset at h
    split at h <;> cases h
    rfl
  · rw [offset_eq_ok.2 (Nat.add_sub_of_le hle)] at h
    cases h

/-- A write fails for its address, or for the chip. -/
theorem Aperture.write_errors (a : Aperture) (address : Word) (bytes : Bytes) (b : Board) :
    Ends (a.write address bytes) b fun o _ => ∀ e, o = .error e →
      e = .invalidAddress ∧ address.toNat < a.base.toNat ∨ ∃ f, e = .storageFault f := by
  unfold write
  cases ho : a.offset address with
  | error e =>
    refine fun e' he => .inl ?_
    cases he
    exact offset_eq_error ho
  | ok offset =>
    refine (a.through_ends (b.chip.write_ends offset bytes)).mono fun o _ h e he => .inr ?_
    obtain ⟨_, rfl, _⟩ | ⟨_, o, _, _, rfl, _⟩ := h
    · cases he
      exact ⟨_, rfl⟩
    · cases o with
      | ok v => cases he
      | error f => cases he; exact ⟨_, rfl⟩

/-- The connection after some reads, each with the same room. -/
def Link.afterReads [Link σ] (room : Nat) : Nat → σ → σ
  | 0, s => s
  | n + 1, s => (Link.read room (afterReads room n s)).link

namespace Rig

/-- Why payload bytes do not come into flash. So many of the image came before them, and there are
`count` of them. -/
inductive Spills (a : Aperture) (p : Placement) (written count : Nat) (c : Chip) :
    UpdateError → Prop
  /-- There is no address for them, or it is below the base. -/
  | astray (h : ∀ address : Word, address.toNat = p.destination.toNat + written →
      address.toNat < a.base.toNat) : Spills a p written count c .invalidAddress
  /-- The flash does not take them. -/
  | fault {address : Word} {bytes : Bytes} {f : Option FlashError} {b b' : Board}
      (ha : address.toNat = p.destination.toNat + written) (hl : bytes.length = count)
      (hc : b.chip = c) (hw : a.write address bytes b = .error (.storageFault f) b') :
      Spills a p written count c (.storageFault f)

theorem deposit_paced {a : Aperture} {p : Placement} {c : Cut} {chunk : Bytes} {r : Rig σ}
    (hstart : c.start ≤ c.stop) (hstop : c.stop ≤ chunk.length) :
    Ends (deposit a p c chunk) r fun o r' => r'.link = r.link ∧ r'.buffer = r.buffer ∧
      ∀ e, o = .error e → c.start < c.stop ∧
        Spills a p c.flashOffset (c.stop - c.start) r.board.chip e := by
  refine deposit_ends (Q := fun o _ => ∀ e, o = .error e → c.start < c.stop ∧
    Spills a p c.flashOffset (c.stop - c.start) r.board.chip e) hstart hstop
      (fun _ _ he => nomatch he) fun hsome => ?_
  have hlen : ((chunk.drop c.start).take (c.stop - c.start)).length = c.stop - c.start := by
    rw [List.length_take, List.length_drop]
    omega
  split
  · rename_i address haddress
    have ha := Word.ofNat?_eq_some.1 haddress
    refine ((a.write_errors address _ r.board).and Ends.exactly).mono fun o b' ho e he => ?_
    subst he
    obtain ⟨herrors, hwrite⟩ := ho
    refine ⟨hsome, ?_⟩
    obtain ⟨rfl, hbelow⟩ | ⟨f, rfl⟩ := herrors _ rfl
    · refine .astray fun address' ha' => ?_
      rwa [ha', ← ha]
    · exact .fault ha hlen rfl hwrite
  · rename_i hnone
    have htop := Word.ofNat?_eq_none.1 hnone
    intro e he
    cases he
    refine ⟨hsome, .astray fun address ha => ?_⟩
    have hlt := address.toNat_lt_size
    omega

variable [Link σ]

/-- Where a transfer stands between two turns. -/
structure Loop (σ : Type) where
  image : Placement
  /-- The images after it. -/
  later : List Placement
  /-- What is noted of the images before it. -/
  summary : Summary
  uptake : Uptake
  rig : Rig σ

/-- The transfer, begun in `r`, stands here after so many turns. -/
inductive Reaches (a : Aperture) (plan : Plan) (r : Rig σ) : Nat → Loop σ → Prop
  | start {p : Placement} {ps : List Placement} (hp : plan.placements = p :: ps) :
      Reaches a plan r 0 ⟨p, ps, {}, ⟨plan.streamStart.toNat, {}, .start p⟩, r⟩
  | turn {n : Nat} {l : Loop σ} {v : { v : Uptake // v.need < l.uptake.need }} {r' : Rig σ}
      (h : Reaches a plan r n l) (hu : l.uptake.progress.isComplete = false)
      (hv : step a l.image l.uptake hu l.rig = .ok v r') :
      Reaches a plan r (n + 1) { l with uptake := v.val, rig := r' }
  | next {n : Nat} {l : Loop σ} {p : Placement} {ps : List Placement} (h : Reaches a plan r n l)
      (hu : l.uptake.progress.isComplete = true) (hp : l.later = p :: ps) :
      Reaches a plan r n
        ⟨p, ps, l.summary.record l.image.role l.uptake.progress,
          { l.uptake with progress := .start p }, l.rig⟩

namespace Loop

/-- The last image is complete. -/
def Over (l : Loop σ) : Prop := l.later = [] ∧ l.uptake.progress.isComplete = true

/-- What a transfer answers that is over. -/
def total (l : Loop σ) : Summary :=
  { l.summary.record l.image.role l.uptake.progress with received := l.uptake.position }

/-- The next turn fails. -/
def Fails (a : Aperture) (l : Loop σ) (e : UpdateError) (r' : Rig σ) : Prop :=
  ∃ hu, step a l.image l.uptake hu l.rig = .error e r'

end Loop

section
variable {a : Aperture} {plan : Plan} {r : Rig σ} {n : Nat} {l : Loop σ}

theorem Reaches.takeImage (h : Reaches a plan r n l) :
    Ends (takeImage a l.image l.uptake) l.rig fun o r' => ∃ m,
      match o with
      | .ok u => Reaches a plan r m { l with uptake := u, rig := r' } ∧
          u.progress.isComplete = true
      | .error e => ∃ k, Reaches a plan r m k ∧ k.Fails a e r' := by
  induction hn : l.uptake.need using Nat.strongRecOn generalizing n l with
  | ind need ih =>
    unfold Rig.takeImage
    by_cases hu : l.uptake.progress.isComplete = true
    · rw [dif_pos hu]
      exact Ends.pure ⟨n, h, hu⟩
    · rw [dif_neg hu]
      have hu' : l.uptake.progress.isComplete = false := by simpa using hu
      refine Ends.exactly.bind (fun v r₁ hv => ?_) fun e r₁ he => ⟨n, l, h, hu', he⟩
      exact ih v.val.need (hn ▸ v.property) (h.turn hu' hv) rfl

/-- A transfer goes on, turn after turn, until it is over or a turn fails. -/
theorem Reaches.takeImages (h : Reaches a plan r n l) :
    Ends (Rig.takeImage a l.image l.uptake >>= fun u =>
        Rig.takeImages a u.position u.window (l.summary.record l.image.role u.progress) l.later)
      l.rig fun o r' => ∃ m k, Reaches a plan r m k ∧
        match o with
        | .ok s => k.Over ∧ s = k.total ∧ r' = k.rig
        | .error e => k.Fails a e r' := by
  induction hps : l.later generalizing n l with
  | nil =>
    refine h.takeImage.bind (fun u r₁ htaken => ?_) fun e r₁ hfailed => hfailed
    obtain ⟨m, hm, hu⟩ := htaken
    exact Ends.pure ⟨m, _, hm, ⟨hps, hu⟩, rfl, rfl⟩
  | cons p ps ih =>
    refine h.takeImage.bind (fun u r₁ htaken => ?_) fun e r₁ hfailed => hfailed
    obtain ⟨m, hm, hu⟩ := htaken
    exact ih (hm.next hu hps) rfl

theorem transfer_reaches (hplan : plan.placements ≠ []) (hbuffer : r.buffer ≠ []) :
    Ends (transfer a plan) r fun o r' => ∃ n l, Reaches a plan r n l ∧
      match o with
      | .ok s => l.Over ∧ s = l.total ∧ r' = l.rig
      | .error e => l.Fails a e r' := by
  obtain ⟨p, ps, hp⟩ := List.exists_cons_of_ne_nil hplan
  refine Ends.get_bind (Ends.guard (fun hb => absurd hb hbuffer) fun _ => ?_)
  rw [hp]
  exact (Reaches.start hp).takeImages

end

/-- The window is a part of the buffer. -/
structure Framed (r : Rig σ) (w : Window) : Prop where
  start_le : w.start ≤ w.stop
  stop_le : w.stop ≤ r.buffer.length

/-- The connection is read once, into the whole buffer, if the window is used up, and not at all
otherwise. -/
def ReadsOn (w : Window) (r r' : Rig σ) : Prop :=
  r'.link = if w.start = w.stop then (Link.read r.buffer.length r.link).link else r.link

/-- What a turn leaves of a window that held something: it used up the first bytes. -/
structure UsesUp (u v : Uptake) (w : Window) (count : Nat) : Prop where
  pos : 0 < count
  le : w.start + count ≤ w.stop
  window : v.window = ⟨w.start + count, w.stop⟩
  position : v.position = u.position + count

/-- The window that a turn goes on with: the one that was there, or if that held nothing then what a
read reports to have brought. -/
def Refills (r : Rig σ) (w w' : Window) : Prop :=
  if w.start = w.stop then ∃ d : Delivery, (Link.read r.buffer.length r.link).result = .ok d ∧
    w' = ⟨0, min d.count r.buffer.length⟩
  else w' = w

/-- Why nothing more comes from the connection. -/
inductive Dries (r : Rig σ) : UpdateError → Prop
  | failed {kind : IoKind} (h : (Link.read r.buffer.length r.link).result = .error kind) :
      Dries r (.streamRead (some kind))
  | ended {d : Delivery} (h : (Link.read r.buffer.length r.link).result = .ok d)
      (hnone : d.count = 0) : Dries r .streamTruncated

/-- A read into the whole buffer leaves the chip alone, and tells what the connection says. -/
theorem readInto_paced (r : Rig σ) :
    Ends (readInto 0 r.buffer.length) r fun o r' =>
      r'.link = (Link.read r.buffer.length r.link).link ∧ r'.buffer.length = r.buffer.length ∧
      r'.board.chip = r.board.chip ∧ match o with
        | .ok n => ∃ d, (Link.read r.buffer.length r.link).result = .ok d ∧ n = d.count
        | .error e => r.Dries e := by
  have hcall : Ends (onLink (Link.read (r.buffer.length - 0))) r fun o r' =>
      r' = r.hear (Link.read r.buffer.length r.link) ∧
        o = (Link.read r.buffer.length r.link).result.mapError
          fun kind => .streamRead (some kind) := .onLink ⟨rfl, rfl⟩
  refine hcall.bind (fun d r₁ hread => ?_) fun e r₁ hfailed => ?_
  · obtain ⟨rfl, hd⟩ := hread
    refine ⟨rfl, Bytes.length_overlay ?_, rfl, d, ?_, rfl⟩
    · rw [Nat.zero_add, List.length_take]
      exact Nat.min_le_left _ _
    · cases hresult : (Link.read r.buffer.length r.link).result with
      | ok d' => rw [hresult] at hd; cases hd; rfl
      | error kind => rw [hresult] at hd; cases hd
  · obtain ⟨rfl, he⟩ := hfailed
    refine ⟨rfl, rfl, rfl, ?_⟩
    cases hresult : (Link.read r.buffer.length r.link).result with
    | ok d => rw [hresult] at he; cases he
    | error kind => rw [hresult] at he; cases he; exact .failed hresult

/-- A refill leaves the chip alone, and fails only if nothing more comes. -/
theorem refill_reads (w : Window) (r : Rig σ) : Ends (refill w) r fun o r' =>
    r'.board.chip = r.board.chip ∧ ∀ e, o = .error e → w.start = w.stop ∧ r.Dries e := by
  unfold refill
  by_cases hw : w.start ≠ w.stop
  · rw [if_pos hw]
    exact Ends.pure ⟨rfl, fun _ he => nomatch he⟩
  · rw [if_neg hw]
    have hempty := Decidable.not_not.1 hw
    refine Ends.get_bind ((readInto_paced r).bind (fun count r₁ hread => ?_) fun e r₁ hfailed => ?_)
    · obtain ⟨_, _, hchip, d, hresult, rfl⟩ := hread
      exact Ends.guard (fun hnone =>
        ⟨hchip, fun _ he => by cases he; exact ⟨hempty, .ended hresult hnone⟩⟩) fun _ =>
          Ends.pure ⟨hchip, fun _ he => nomatch he⟩
    · obtain ⟨_, _, hchip, hdry⟩ := hfailed
      exact ⟨hchip, fun _ he => by cases he; exact ⟨hempty, hdry⟩⟩

theorem refill_paced {r : Rig σ} {w : Window} (hw : r.Framed w) (hbuffer : r.buffer ≠ []) :
    Ends (refill w) r fun o r' => ReadsOn w r r' ∧ r'.buffer.length = r.buffer.length ∧
      ∀ w', o = .ok w' → r'.Framed w' ∧ w'.start < w'.stop ∧ r.Refills w w' := by
  have hle := hw.start_le
  unfold refill ReadsOn
  by_cases hempty : w.start = w.stop
  · rw [if_neg (not_not_intro hempty), if_pos hempty]
    have hcap := List.length_pos_iff.2 hbuffer
    refine Ends.get_bind ((readInto_paced r).bind (fun count r₁ hread => ?_) fun e r₁ hfailed => ?_)
    · obtain ⟨hlink, hlen, _, d, hresult, rfl⟩ := hread
      refine Ends.guard (fun _ => ⟨hlink, hlen, fun _ hw' => nomatch hw'⟩) fun hcount =>
        Ends.pure ⟨hlink, hlen, fun w' hw' => ?_⟩
      cases hw'
      refine ⟨⟨Nat.zero_le _, ?_⟩, ?_, ?_⟩
      · rw [hlen]
        exact Nat.min_le_right _ _
      · change 0 < min d.count r.buffer.length
        omega
      · rw [Refills, if_pos hempty]
        exact ⟨d, hresult, rfl⟩
    · obtain ⟨hlink, hlen, _⟩ := hfailed
      exact ⟨hlink, hlen, fun _ hw' => nomatch hw'⟩
  · rw [if_pos hempty, if_neg hempty]
    refine Ends.pure ⟨rfl, rfl, fun w' hw' => ?_⟩
    cases hw'
    exact ⟨hw, by omega, by rw [Refills, if_neg hempty]⟩

/-- Why a turn ends with an error. Its window held nothing and nothing more comes, or payload bytes
came that do not come into flash. -/
inductive Breaks (a : Aperture) (p : Placement) (u : Uptake) (r : Rig σ) : UpdateError → Prop
  | dry {e : UpdateError} (hempty : u.window.start = u.window.stop) (h : r.Dries e) :
      Breaks a p u r e
  | spill {e : UpdateError} {count : Nat} (hpos : 0 < count)
      (hfit : u.progress.written + count ≤ p.payloadLen.toNat)
      (h : Spills a p u.progress.written count r.board.chip e) : Breaks a p u r e

theorem Breaks.ne_invalidLayout {a : Aperture} {p : Placement} {u : Uptake} {r : Rig σ}
    {e : UpdateError} (h : Breaks a p u r e) : e ≠ .invalidLayout := by
  cases h with
  | dry _ h => cases h <;> exact nofun
  | spill _ _ h => cases h <;> exact nofun

/-- The bytes of a chunk that a turn takes in are used up. -/
theorem usesUp_feed {p : Placement} {u : Uptake} {w : Window} {chunk : Bytes} (hp : u.Placed p)
    (hu : u.progress.isComplete = false) (hw : w.start < w.stop)
    (hchunk : chunk.length = w.stop - w.start) :
    UsesUp u (({ u with window := w } : Uptake).feed chunk) w
      (u.progress.cut u.position chunk.length).stop := by
  have hcut := (hp.cut chunk.length).2.1
  have hstop := u.progress.cut_stop_le u.position chunk.length
  have hleft : u.position < p.streamStop := by
    have hnot := mt hp.isComplete.2 (by rw [hu]; exact Bool.false_ne_true)
    have hle := hp.position_le_stop
    omega
  have hfits : w.start + (u.progress.cut u.position chunk.length).stop ≤ w.stop := by omega
  exact ⟨by omega, hfits, Window.advance_eq hfits, rfl⟩

omit [Link σ] in
theorem UsesUp.framed {u v : Uptake} {w : Window} {count : Nat} {r : Rig σ}
    (h : UsesUp u v w count) (hw : r.Framed w) : r.Framed v.window := by
  rw [h.window]
  exact ⟨h.le, hw.stop_le⟩

/-- A turn reads once at the most, and goes on within the image and within the buffer. -/
theorem step_paced {a : Aperture} {p : Placement} {u : Uptake} {r : Rig σ} (hp : u.Placed p)
    (hw : r.Framed u.window) (hbuffer : r.buffer ≠ [])
    (hu : u.progress.isComplete = false) : Ends (step a p u hu) r fun o r' =>
      ReadsOn u.window r r' ∧ r'.buffer.length = r.buffer.length ∧
      match o with
      | .ok v => v.val.Placed p ∧ r'.Framed v.val.window ∧ ∃ w count,
          r'.Framed w ∧ r.Refills u.window w ∧ UsesUp u v.val w count
      | .error e => Breaks a p u r e := by
  unfold step
  have hrefill := (refill_paced hw hbuffer).and (refill_reads u.window r)
  refine hrefill.bind (fun w r₁ hfilled => ?_) ?dry
  case dry =>
    intro e r₁ hfailed
    obtain ⟨⟨hread, hlen, _⟩, _, hdry⟩ := hfailed
    obtain ⟨hempty, hdry⟩ := hdry e rfl
    exact ⟨hread, hlen, .dry hempty hdry⟩
  obtain ⟨⟨hread, hlen, hframed⟩, hchip, _⟩ := hfilled
  obtain ⟨hw₁, hne, hrefills⟩ := hframed w rfl
  obtain ⟨chunk, hsome, hwindow, -, hchunk⟩ := Window.chunk?_of_lt hne hw₁.stop_le
  refine Ends.get_bind ?_
  rw [hwindow]
  dsimp only
  have hstop := u.progress.cut_stop_le u.position chunk.length
  refine (deposit_paced (u.progress.cut_start_le _ _) hstop).bind (fun _ r₂ hdone => ?_) ?spill
  case spill =>
    intro e r₂ hfailed
    obtain ⟨hlink, hbuf, hspills⟩ := hfailed
    obtain ⟨hpayload, hspills⟩ := hspills e rfl
    have hfed := (u.progress.feed u.position chunk).written_le
    exact ⟨hlink.trans hread, hbuf ▸ hlen, .spill (Nat.sub_pos_of_lt hpayload)
      (Nat.le_trans hfed (Nat.le_of_eq hp.payloadLen)) (hchip ▸ hspills)⟩
  obtain ⟨hlink, hbuf, _⟩ := hdone
  have hused := usesUp_feed hp hu hne hchunk
  have hw₂ : r₂.Framed w := ⟨hw₁.start_le, hbuf ▸ hw₁.stop_le⟩
  exact Ends.pure ⟨hlink.trans hread, hbuf ▸ hlen, (hp.window w).feed chunk, hused.framed hw₂, w,
    _, hw₂, hrefills, hused⟩

/-- How a turn comes out: it used up some of a window within the buffer, and is not past the end of
the image, or it could not get more of the stream, or could not put it into flash. No guard of the
loop failed. -/
def Loop.Turned (a : Aperture) (l : Loop σ) (r' : Rig σ) : Except UpdateError Uptake → Prop
  | .ok v => ∃ w count, r'.Framed w ∧ l.rig.Refills l.uptake.window w ∧
      UsesUp l.uptake v w count ∧ v.position ≤ l.image.streamStop
  | .error e => e ≠ .invalidLayout ∧ Breaks a l.image l.uptake l.rig e

/-- What holds between two turns, after `n` of them. -/
structure Paced (plan : Plan) (r : Rig σ) (n : Nat) (l : Loop σ) : Prop where
  framed : l.rig.Framed l.uptake.window
  buffer : l.rig.buffer.length = r.buffer.length
  /-- The position is not past the end of the image, and tells how much of it came. -/
  placed : l.uptake.Placed l.image
  position_le : l.uptake.position ≤ plan.streamStop
  /-- Each turn used up one byte at least. -/
  le_position : plan.streamStart.toNat + n ≤ l.uptake.position
  /-- Each turn made one read at the most. -/
  reads : ∃ m ≤ n, l.rig.link = Link.afterReads r.buffer.length m r.link

section
variable {a : Aperture} {plan : Plan} {r : Rig σ} {n : Nat} {l : Loop σ}

theorem Paced.buffer_ne (h : Paced plan r n l) (hbuffer : r.buffer ≠ []) : l.rig.buffer ≠ [] :=
  List.length_pos_iff.1 (h.buffer ▸ List.length_pos_iff.2 hbuffer)

/-- The images of the transfer are the last ones of the plan. -/
theorem Reaches.images (h : Reaches a plan r n l) :
    ∃ before, plan.placements = before ++ l.image :: l.later := by
  induction h with
  | start hp => exact ⟨[], hp⟩
  | turn _ _ _ ih => exact ih
  | @next n l p ps _ _ hp ih =>
    obtain ⟨before, hbefore⟩ := ih
    exact ⟨before ++ [l.image], by rw [hbefore, hp, List.append_assoc]; rfl⟩

theorem Reaches.mem (h : Reaches a plan r n l) : l.image ∈ plan.placements := by
  obtain ⟨before, hbefore⟩ := h.images
  rw [hbefore]
  exact List.mem_append_right _ List.mem_cons_self

/-- The next image starts where this one ends, or later. -/
theorem Reaches.ordered (h : Reaches a plan r n l) (hw : plan.WellFormed) :
    Plan.Ordered l.image.streamStop l.later := by
  obtain ⟨before, hbefore⟩ := h.images
  obtain ⟨_, hordered⟩ := (hbefore ▸ hw.ordered).append
  exact hordered.2

theorem Paced.turn {v : Uptake} {r' : Rig σ} {w : Window} {count : Nat} (h : Paced plan r n l)
    (hw : plan.WellFormed) (hl : l.image ∈ plan.placements)
    (hu : l.uptake.progress.isComplete = false) (hread : ReadsOn l.uptake.window l.rig r')
    (hbuffer : r'.buffer.length = l.rig.buffer.length) (hv : v.Placed l.image)
    (hframed : r'.Framed v.window) (hused : UsesUp l.uptake v w count) :
    Paced plan r (n + 1) { l with uptake := v, rig := r' } where
  framed := hframed
  buffer := hbuffer.trans h.buffer
  placed := hv
  position_le := by
    have hspan : l.image.span ≠ 0 := fun hs => by
      rw [h.placed.isComplete.2 (.inl hs)] at hu
      cases hu
    exact Nat.le_trans hv.position_le_stop (hw.streamStop_le hl hspan)
  le_position := by
    have hle := h.le_position
    have hpos := hused.pos
    dsimp only
    rw [hused.position]
    omega
  reads := by
    obtain ⟨m, hm, hlink⟩ := h.reads
    unfold ReadsOn at hread
    by_cases hempty : l.uptake.window.start = l.uptake.window.stop
    · refine ⟨m + 1, by omega, ?_⟩
      rw [hread, if_pos hempty, hlink, h.buffer]
      rfl
    · exact ⟨m, by omega, by rw [hread, if_neg hempty, hlink]⟩

theorem Reaches.paced (h : Reaches a plan r n l) (hw : plan.WellFormed) (hbuffer : r.buffer ≠ []) :
    Paced plan r n l := by
  induction h with
  | @start p ps hp =>
    have hmem : p ∈ plan.placements := hp ▸ List.mem_cons_self
    exact ⟨⟨Nat.le_refl _, Nat.zero_le _⟩, rfl,
      Uptake.placed_start (hw.fits p hmem) (hw.ordered.le_streamOffset p hmem) _,
      hw.streamStart_le, Nat.le_refl _, 0, Nat.le_refl _, rfl⟩
  | @turn n l v r' hl hu hv ih =>
    obtain ⟨hread, hlen, hplaced, hframed, w, count, _, _, hused⟩ :=
      (step_paced ih.placed ih.framed (ih.buffer_ne hbuffer) hu).ok hv
    exact ih.turn hw hl.mem hu hread hlen hplaced hframed hused
  | @next n l p ps hl hu hp ih =>
    have hmem : p ∈ plan.placements := by
      obtain ⟨before, hbefore⟩ := hl.images
      rw [hbefore, hp]
      simp
    have hfirst := (hp ▸ hl.ordered hw).1
    have hstart := Nat.le_trans ih.placed.position_le_stop hfirst
    exact ⟨ih.framed, ih.buffer, Uptake.placed_start (hw.fits p hmem) hstart _, ih.position_le,
      ih.le_position, ih.reads⟩

theorem Reaches.turned (h : Reaches a plan r n l) (hw : plan.WellFormed) (hbuffer : r.buffer ≠ [])
    (hu : l.uptake.progress.isComplete = false) :
    n < plan.streamStop - plan.streamStart.toNat ∧
      Ends (step a l.image l.uptake hu) l.rig fun o r' =>
        ReadsOn l.uptake.window l.rig r' ∧ l.Turned a r' (o.map (·.val)) := by
  have hpaced := h.paced hw hbuffer
  have hne := hpaced.buffer_ne hbuffer
  constructor
  · have hspan : ¬(l.image.span = 0 ∨ l.uptake.position = l.image.streamStop) := fun hs => by
      rw [hpaced.placed.isComplete.2 hs] at hu
      cases hu
    have hstop := hw.streamStop_le h.mem fun hs => hspan (.inl hs)
    have hle := hpaced.placed.position_le_stop
    have hcount := hpaced.le_position
    omega
  · refine (step_paced hpaced.placed hpaced.framed hne hu).mono fun o r' hstep => ?_
    obtain ⟨hread, _, ho⟩ := hstep
    refine ⟨hread, ?_⟩
    cases o with
    | error e => exact ⟨ho.ne_invalidLayout, ho⟩
    | ok v =>
      obtain ⟨hplaced, _, w, count, hframed, hkept, hused⟩ := ho
      exact ⟨w, count, hframed, hkept, hused, hplaced.position_le_stop⟩

/-- A transfer comes to an end over any connection, within as many turns as there are bytes of the
stream up to the end of the last image. Each turn reads once at the most and uses up a byte of the
window at least, the window stays a part of the buffer, and the guards against a window or a
payload outside of it are never met. -/
theorem transfer_paced (hplan : plan.Made) (hbuffer : r.buffer ≠ []) :
    (∀ n l, Reaches a plan r n l → Paced plan r n l ∧
      ∀ hu, n < plan.streamStop - plan.streamStart.toNat ∧
        Ends (step a l.image l.uptake hu) l.rig fun o r' =>
          ReadsOn l.uptake.window l.rig r' ∧ l.Turned a r' (o.map (·.val))) ∧
    Ends (transfer a plan) r fun o r' => ∃ n l, Reaches a plan r n l ∧
      n ≤ plan.streamStop - plan.streamStart.toNat ∧
      match o with
      | .ok s => l.Over ∧ s = l.total ∧ r' = l.rig
      | .error e => l.Fails a e r' ∧ e ≠ .invalidLayout ∧ Breaks a l.image l.uptake l.rig e := by
  have hw := hplan.wellFormed
  refine ⟨fun n l hl => ⟨hl.paced hw hbuffer, hl.turned hw hbuffer⟩, ?_⟩
  refine (transfer_reaches hplan.placements_ne_nil hbuffer).mono fun o r' hend => ?_
  obtain ⟨n, l, hl, ho⟩ := hend
  refine ⟨n, l, hl, ?_, ?_⟩
  · have hpaced := hl.paced hw hbuffer
    have hcount := hpaced.le_position
    have hle := hpaced.position_le
    omega
  · cases o with
    | ok s => exact ho
    | error e =>
      obtain ⟨hu, he⟩ := ho
      exact ⟨⟨hu, he⟩, ((hl.turned hw hbuffer hu).2.error he).2⟩

end

end Rig

namespace Sample

/-- A bare image of five bytes, for the second bank. -/
def image : Placement where
  role := .primary
  tag := Bank.bank2.imageTag
  destination := 0x1000
  payloadLen := 5
  streamOffset := 0
  signatureLen := 0
  expectedChecksum := 0

def imagePlan : Plan where
  placements := [image]
  streamStart := 0
  targetBank := .bank2

theorem imagePlan_made : imagePlan.Made := .ofBare (by rfl : Plan.ofBare .bank2 0x1000 5 0 = _)

/-- The connection has seven bytes, and reports a hundred whenever it is read. -/
def boaster : Rig Scripted where
  link := { data := [1, 2, 3, 4, 5, 6, 7], script := [.lie 100] }
  board := { chip := { size := 0x3000 }, store := .memory {} }
  buffer := [0, 0, 0]

end Sample

theorem Rig.transfer_paced_sample : Sample.imagePlan.Made ∧ Sample.boaster.buffer ≠ [] ∧
    Ends (transfer { base := 0 } Sample.imagePlan) Sample.boaster fun o r' => ∃ n l,
      Reaches { base := 0 } Sample.imagePlan Sample.boaster n l ∧ n ≤ 5 ∧
      match o with
      | .ok s => l.Over ∧ s = l.total ∧ r' = l.rig
      | .error e => l.Fails { base := 0 } e r' ∧ e ≠ .invalidLayout ∧
          Breaks { base := 0 } l.image l.uptake l.rig e :=
  have hbuffer : Sample.boaster.buffer ≠ [] := by decide
  ⟨Sample.imagePlan_made, hbuffer, (transfer_paced Sample.imagePlan_made hbuffer).2⟩

end DualBank
