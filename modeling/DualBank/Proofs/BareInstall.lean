import DualBank.Proofs.Bare
import DualBank.Proofs.Completeness
import DualBank.Proofs.Traffic
import DualBank.Proofs.Verdict

/-! A bare image from end to end. What decides about it is read off the device and the bytes of the
stream, before anything is done: whether bank 2 can be where it is configured, whether the image is
whole and fits, whether its sectors can be erased, and whether its bytes sum up. -/
namespace DualBank

variable {σ : Type}

/-- The file info that leads the bytes. -/
def FileInfo.leading (D : Bytes) : FileInfo := decode (D.take length)

/-! ## The checks of bank 2 -/

theorem Config.checkBank2_verdict (address : Word) :
    match checkBank2 address with
    | .ok _ => address ≠ erasedWord ∧ address.toNat % sectorSize = 0
    | .error _ => ¬(address ≠ erasedWord ∧ address.toNat % sectorSize = 0) := by
  cases h : checkBank2 address with
  | ok v => exact checkBank2_eq_ok h
  | error e =>
    rintro ⟨hne, halign⟩
    rw [checkBank2, if_neg (by simp [hne, isSectorAligned, halign])] at h
    cases h

theorem Config.checkFits_verdict (c : Config) (bank2 imageLen : Word) :
    match c.checkFits bank2 imageLen with
    | .ok _ => c.bank1Address.toNat + imageLen.toNat ≤ bank2.toNat
    | .error _ => ¬c.bank1Address.toNat + imageLen.toNat ≤ bank2.toNat := by
  cases h : c.checkFits bank2 imageLen with
  | ok v => exact checkFits_eq_ok h
  | error e =>
    intro hle
    unfold checkFits at h
    split at h
    · rename_i hnone
      have hlt := bank2.toNat_lt_size
      have hgap : bank2.minus? c.bank1Address =
          some (.ofNat (bank2.toNat - c.bank1Address.toNat)) := by
        rw [Word.minus?_eq_some, UInt32.toNat_ofNat_of_lt' (by omega)]
        omega
      exact absurd (hnone.symm.trans hgap) (by simp)
    · rename_i gap hgap
      have hsum := Word.minus?_eq_some.1 hgap
      split at h
      · rename_i hfit
        rw [UInt32.lt_iff_toNat_lt] at hfit
        omega
      · cases h

theorem Config.checkClear_verdict (c : Config) (a : Aperture) (bank2 : Word) (b : Board) :
    Ends (c.checkClear a bank2) b fun o b' => b.Same b' ∧ (o.isOk = true ↔
      ∃ stop b'', c.bank1End a b = .ok stop b'' ∧ stop.toNat ≤ bank2.toNat) := by
  refine ((Board.Quiet.bank1End c a b).and Ends.exactly).bind (fun stop b₁ hend => ?_)
    fun e b₁ hend => ?_
  · obtain ⟨hd, hend⟩ := hend
    have hclear : (∃ stop b'', c.bank1End a b = .ok stop b'' ∧ stop.toNat ≤ bank2.toNat) ↔
        ¬bank2 < stop := by
      rw [UInt32.lt_iff_toNat_lt, hend]
      constructor
      · rintro ⟨_, _, h, hle⟩
        cases h
        omega
      · exact fun hle => ⟨stop, b₁, rfl, by omega⟩
    rw [hclear]
    split
    · rename_i hlt
      exact Ends.throw ⟨hd.replay, iff_of_false Bool.false_ne_true fun h => h hlt⟩
    · rename_i hle
      exact Ends.pure ⟨hd.replay, iff_of_true rfl hle⟩
  · obtain ⟨hd, hend⟩ := hend
    refine ⟨hd.replay, iff_of_false Bool.false_ne_true ?_⟩
    rintro ⟨_, _, h, _⟩
    exact absurd (hend.symm.trans h) (by simp [Ends.result])

namespace Attempt

/-- Bank 2 can be where it is configured: on a sector, and not before the end of bank 1. -/
structure Settleable (a : Attempt) (b : Board) : Prop where
  ne : a.config.defaultBank2Address ≠ erasedWord
  aligned : a.config.defaultBank2Address.toNat % sectorSize = 0
  clear : ∃ stop b', a.config.bank1End a.aperture b = .ok stop b' ∧
    stop.toNat ≤ a.config.defaultBank2Address.toNat

theorem Settleable.same {a : Attempt} {b b' : Board} (h : a.Settleable b) (hs : b.Same b')
    (hf : b.Faultless) : a.Settleable b' := by
  obtain ⟨stop, b₁, hend, hle⟩ := h.clear
  refine ⟨h.ne, h.aligned, ?_⟩
  obtain ⟨_, _, b₂, hx, hx', _⟩ | ⟨_, _, _, hx, _⟩ :=
    (Board.Congruent.bank1End a.config a.aperture b b' hs hf).cases
  · cases hend.symm.trans hx
    exact ⟨stop, b₂, hx', hle⟩
  · cases hend.symm.trans hx

theorem settleBank2_verdict (a : Attempt) {b : Board} (hf : b.Faultless) :
    Ends a.settleBank2 b fun o b' => b.chip.Same b'.chip ∧ match o with
      | .ok _ => a.Settleable b ∧
          (b.store.put .bank2Address a.config.defaultBank2Address).Same b'.store
      | .error _ => ¬a.Settleable b := by
  have hbank2 := Config.checkBank2_verdict a.config.defaultBank2Address
  unfold settleBank2
  refine Ends.bind (P := fun o b₁ => b₁ = b ∧ o = Config.checkBank2 a.config.defaultBank2Address)
    (Ends.ofExcept ⟨rfl, rfl⟩) (fun _ b₁ h => ?_) fun e b₁ h => ?_
  · obtain ⟨rfl, hok⟩ := h
    rw [← hok] at hbank2
    refine (a.config.checkClear_verdict a.aperture _ b₁).bind (fun _ b₂ hclear => ?_)
      fun e b₂ hclear => ?_
    · obtain ⟨hsame, hclear⟩ := hclear
      have hsettled : a.Settleable b₁ := ⟨hbank2.1, hbank2.2, hclear.1 rfl⟩
      have hf₂ := hsame.faultless hf
      refine (Board.writeSlot_ends hf₂.store.plain _ _).mono fun o b' hwritten => ?_
      obtain ⟨hchip, hwritten⟩ := hwritten
      refine ⟨hchip ▸ hsame.chip, ?_⟩
      cases o with
      | ok _ => exact ⟨hsettled, (hsame.store.put _ _).trans hwritten.1⟩
      | error e => exact absurd hf₂.store hwritten.2.2.2
    · obtain ⟨hsame, hclear⟩ := hclear
      exact ⟨hsame.chip, fun hs => Bool.false_ne_true (hclear.2 hs.clear)⟩
  · obtain ⟨rfl, herror⟩ := h
    rw [← herror] at hbank2
    exact ⟨.refl _, fun hs => hbank2 ⟨hs.ne, hs.aligned⟩⟩

end Attempt

/-! ## The plan -/

namespace Placement

/-- A bare image has no signature, and is the whole of the stream. -/
def bare (bank : Bank) (address len checksum : Word) : Placement where
  role := .primary
  tag := bank.imageTag
  destination := address
  payloadLen := len
  streamOffset := 0
  signatureLen := 0
  expectedChecksum := checksum

variable {bank : Bank} {address len checksum : Word}

theorem span_bare : (bare bank address len checksum).span = len.toNat := rfl

theorem regionStart?_bare : (bare bank address len checksum).regionStart? = some address :=
  regionStart?_eq_some.2 rfl

theorem regionLen?_bare : (bare bank address len checksum).regionLen? = some len :=
  regionLen?_eq_some.2 rfl

theorem streamStop_bare : (bare bank address len checksum).streamStop = len.toNat :=
  Nat.zero_add _

theorem regular_bare : (bare bank address len checksum).Regular := .inl rfl

end Placement

/-- Every bare image has a plan. -/
theorem Plan.ofBare_eq (bank : Bank) (address len checksum : Word) :
    ofBare bank address len checksum = .ok {
      placements := [.bare bank address len checksum], streamStart := 0, targetBank := bank } := by
  refine validated_ok (fun p hp => ?_) ⟨Nat.le_refl _, trivial⟩
  obtain rfl := List.mem_singleton.1 hp
  refine ⟨Nat.zero_le _, Nat.zero_le _, ?_⟩
  have hlen := len.toNat_lt_size
  simp only [Placement.streamStop]
  exact Nat.zero_add _ ▸ hlen

namespace Attempt

/-- Where a bare image goes. -/
def bareTarget (a : Attempt) : Word :=
  match a.running.other with
  | .bank1 => a.config.bank1Address
  | .bank2 => a.config.defaultBank2Address

/-- The plan that a file info asks for. -/
def barePlan (a : Attempt) (info : FileInfo) : Plan where
  placements := [.bare a.running.other a.bareTarget info.size info.checksum]
  streamStart := 0
  targetBank := a.running.other

/-- There is an image, and if it is for bank 1 then it ends where bank 2 is configured, or
before. -/
structure Fits (a : Attempt) (info : FileInfo) : Prop where
  size_ne : info.size ≠ 0
  below : a.running.other = .bank1 →
    a.config.bank1Address.toNat + info.size.toNat ≤ a.config.defaultBank2Address.toNat

variable [Link σ]

/-- The rig once the file info has come in. -/
structure PastInfo (D : Bytes) (r r' : Rig σ) : Prop where
  same : r.board.Same r'.board
  buffer : r'.buffer = r.buffer
  serves : Link.Serves r'.link (D.drop FileInfo.length)

theorem receiveInfo_verdict {r : Rig σ} {D : Bytes} (hD : Link.Serves r.link D) :
    Ends FileInfo.receive r fun o r' => PastInfo D r r' ∧ match o with
      | .ok info => FileInfo.length ≤ D.length ∧ info = .leading D
      | .error _ => ¬FileInfo.length ≤ D.length := by
  refine (FileInfo.receive_ends hD).mono fun o r' h => ?_
  obtain ⟨hsame, hbuf, hserves, rfl⟩ := h
  refine ⟨⟨hsame, hbuf, hserves⟩, ?_⟩
  by_cases hshort : D.length < FileInfo.length
  · rw [if_pos hshort]
    exact Nat.not_le.2 hshort
  · rw [if_neg hshort]
    exact ⟨Nat.not_lt.1 hshort, rfl⟩

theorem planInfo_verdict (a : Attempt) {r : Rig σ} {D : Bytes} (hD : Link.Serves r.link D) :
    Ends a.planInfo r fun o r' => PastInfo D r r' ∧ match o with
      | .ok plan => FileInfo.length ≤ D.length ∧ a.Fits (.leading D) ∧
          plan = a.barePlan (.leading D)
      | .error _ => ¬(FileInfo.length ≤ D.length ∧ a.Fits (.leading D)) := by
  unfold planInfo
  refine Ends.bind (P := fun o r₁ => PastInfo D r r₁ ∧ match o with
      | .ok info => FileInfo.length ≤ D.length ∧ info = .leading D
      | .error _ => ¬FileInfo.length ≤ D.length)
    (Ends.during ((receiveInfo_verdict hD).mono fun o r₁ h => by cases o <;> exact h))
    (fun info r₁ h => ?_) fun e r₁ ⟨hpast, hshort⟩ => ⟨hpast, fun h => hshort h.1⟩
  obtain ⟨hpast, hlen, rfl⟩ := h
  generalize FileInfo.leading D = info
  refine Ends.guard (fun hzero => ⟨hpast, fun h => h.2.size_ne hzero⟩) fun hsize => ?_
  have hlast : ∀ address, address = a.bareTarget → a.Fits info →
      Ends (Attempt.during .resolveBank (MonadExcept.ofExcept
        (Plan.ofBare a.running.other address info.size info.checksum))) r₁ fun o r' =>
          PastInfo D r r' ∧ match o with
            | .ok plan => FileInfo.length ≤ D.length ∧ a.Fits info ∧ plan = a.barePlan info
            | .error _ => ¬(FileInfo.length ≤ D.length ∧ a.Fits info) := by
    rintro address rfl hfits
    rw [Plan.ofBare_eq]
    exact Ends.during (Ends.pure ⟨hpast, hlen, hfits, rfl⟩)
  cases hother : a.running.other with
  | bank1 =>
    rw [hother] at hlast
    have htarget : a.config.bank1Address = a.bareTarget := by simp only [bareTarget, hother]
    have hverdict := a.config.checkFits_verdict a.config.defaultBank2Address info.size
    refine Ends.bind (P := fun o r₂ => r₂ = r₁ ∧ match o with
      | .ok _ => a.config.bank1Address.toNat + info.size.toNat ≤
          a.config.defaultBank2Address.toNat
      | .error _ => ¬a.config.bank1Address.toNat + info.size.toNat ≤
          a.config.defaultBank2Address.toNat) (Ends.during (Ends.ofExcept ⟨rfl, ?_⟩))
      (fun _ r₂ ⟨hr, hbelow⟩ => ?_) fun e r₂ ⟨hr, habove⟩ => ?_
    · cases hfits : a.config.checkFits a.config.defaultBank2Address info.size <;>
        rw [hfits] at hverdict <;> exact hverdict
    · exact hr ▸ hlast _ htarget ⟨hsize, fun _ => hbelow⟩
    · exact ⟨hr ▸ hpast, fun h => habove (h.2.below hother)⟩
  | bank2 =>
    rw [hother] at hlast
    exact hlast _ (by simp only [bareTarget, hother])
      ⟨hsize, fun h => by rw [hother] at h; cases h⟩

/-- The handshake goes out, and that is all. -/
theorem shakeHands_verdict {target : Bank} {r : Rig σ} {D : Bytes} {n : Nat}
    (ht : Link.Takes [target.toWord.toUInt8] r.link n) (hD : Link.Serves r.link D) :
    Ends (shakeHands target) r fun o r' => o = .ok () ∧ r.board.Same r'.board ∧
      r'.buffer = r.buffer ∧ Link.Serves r'.link D := by
  refine (Rig.onLink_ends ht.write).bind (fun taken r₁ hwritten => ?_) fun _ _ h => nomatch h.1
  obtain ⟨ho, hlink, hbuf, hsame⟩ := hwritten
  cases ho
  refine Ends.guard (fun hzero => absurd hzero ht.pos) fun _ => ?_
  have hflush := ht.flush
  rw [← hlink] at hflush
  refine (Rig.onLink_ends hflush).mono fun o r₂ hflushed => ?_
  obtain ⟨ho, hlink₂, hbuf₂, hsame₂⟩ := hflushed
  refine ⟨ho, hsame.trans hsame₂, hbuf₂.trans hbuf, ?_⟩
  rw [hlink₂, hlink]
  exact Link.honest_serves.flush (Link.honest_serves.write _ hD)

/-- A connection over which hands were shaken has taken the byte. -/
theorem shakeHands_takes (target : Bank) (r : Rig σ) :
    Yields (shakeHands target) r fun _ _ => ∃ n, Link.Takes [target.toWord.toUInt8] r.link n := by
  have hcall : ∀ {α : Type} (call : σ → Answer IoKind σ α) (r : Rig σ),
      Yields (Rig.onLink call) r fun v r' =>
        (call r.link).result = .ok v ∧ r'.link = (call r.link).link := by
    intro α call r v r' hx
    unfold Rig.onLink at hx
    dsimp only at hx
    cases hresult : (call r.link).result with
    | ok w => rw [hresult] at hx; cases hx; exact ⟨rfl, rfl⟩
    | error kind => rw [hresult] at hx; cases hx
  refine (hcall _ r).bind fun n r₁ ⟨hwrite, hlink⟩ => Yields.guard fun hpos => ?_
  intro _ r₂ hx
  obtain ⟨hflush, _⟩ := hcall _ r₁ _ _ hx
  exact ⟨n, hwrite, hpos, hlink ▸ hflush⟩

theorem planBare_takes (a : Attempt) (r : Rig σ) : Yields a.planBare r fun _ _ =>
    ∃ n, Link.Takes [a.running.other.toWord.toUInt8] r.link n := by
  rw [planBare_eq]
  have hsettled : Yields (Rig.onBoard a.settleBank2) r fun _ r₁ => r₁.link = r.link :=
    Yields.onBoard fun _ _ _ => rfl
  refine hsettled.during.bind fun _ r₁ hlink => ?_
  exact (shakeHands_takes _ r₁).during.bind fun _ _ htakes _ _ _ => hlink ▸ htakes

/-- There is a plan for a bare image. -/
structure PlansBare (a : Attempt) (b : Board) (D : Bytes) : Prop where
  settleable : a.Settleable b
  info : FileInfo.length ≤ D.length
  fits : a.Fits (.leading D)

/-- The verdict on what precedes a bare image, over a connection that takes the handshake. -/
theorem planBare_verdict (a : Attempt) {r : Rig σ} {D : Bytes} {n : Nat} (hf : r.board.Faultless)
    (ht : Link.Takes [a.running.other.toWord.toUInt8] r.link n) (hD : Link.Serves r.link D) :
    Ends a.planBare r fun o r' => match o with
      | .ok plan => a.PlansBare r.board D ∧ plan = a.barePlan (.leading D) ∧
          r.board.chip.Same r'.board.chip ∧
          (r.board.store.put .bank2Address a.config.defaultBank2Address).Same r'.board.store ∧
          r'.buffer = r.buffer ∧ Link.Serves r'.link (D.drop FileInfo.length)
      | .error _ => ¬a.PlansBare r.board D := by
  rw [planBare_eq]
  refine Ends.bind (P := fun o r₁ => r₁.link = r.link ∧ r₁.buffer = r.buffer ∧
    r.board.chip.Same r₁.board.chip ∧ match o with
      | .ok _ => a.Settleable r.board ∧
          (r.board.store.put .bank2Address a.config.defaultBank2Address).Same r₁.board.store
      | .error _ => ¬a.Settleable r.board)
    (Ends.during (Ends.onBoard ((a.settleBank2_verdict hf).mono fun o b h => ?_)))
    (fun _ r₁ h₁ => ?_) fun e r₁ h => fun hplans => h.2.2.2 hplans.settleable
  · cases o <;> exact ⟨rfl, rfl, h⟩
  obtain ⟨hlink, hbuf, hchip, hsettled, hstore⟩ := h₁
  rw [← hlink] at ht hD
  refine Ends.bind (P := fun o r₂ => o = .ok () ∧ r₁.board.Same r₂.board ∧
    r₂.buffer = r₁.buffer ∧ Link.Serves r₂.link D)
    (Ends.during ((shakeHands_verdict ht hD).mono fun o r₂ h => by rw [h.1]; exact ⟨rfl, h.2⟩))
    (fun _ r₂ h₂ => ?_) fun _ _ h => nomatch h.1
  obtain ⟨_, hsame, hbuf₂, hD₂⟩ := h₂
  refine (a.planInfo_verdict hD₂).mono fun o r₃ h₃ => ?_
  obtain ⟨hpast, h₃⟩ := h₃
  have hsame₃ := hsame.trans hpast.same
  cases o with
  | ok plan =>
    exact ⟨⟨hsettled, h₃.1, h₃.2.1⟩, h₃.2.2, hchip.trans hsame₃.chip, hstore.trans hsame₃.store,
      hpast.buffer.trans (hbuf₂.trans hbuf), hpast.serves⟩
  | error e => exact fun hplans => h₃ ⟨hplans.info, hplans.fits⟩

end Attempt

/-! ## The image -/

theorem Placement.canErase_bare {a : Aperture} {size : Nat} {bank : Bank}
    {address len checksum : Word} : (bare bank address len checksum).CanErase a size ↔
      a.CanErase size address len := by
  constructor
  · rintro ⟨start, len', hs, hl, hcan⟩
    cases regionStart?_bare.symm.trans hs
    cases regionLen?_bare.symm.trans hl
    exact hcan
  · exact fun hcan => ⟨address, len, regionStart?_bare, regionLen?_bare, hcan⟩

theorem Placement.Loaded.shows {a : Aperture} {c : Chip} {C : Bytes} {bank : Bank}
    {address len checksum : Word} (h : (bare bank address len checksum).Loaded a c C)
    (hlen : len.toNat ≤ C.length) : a.Shows c address (C.take len.toNat) := by
  obtain ⟨hbase, hwithin, hread⟩ := h
  have htake : (C.take len.toNat).length = len.toNat := List.length_take_of_le hlen
  simp only [bare] at hbase hwithin
  refine ⟨address.toNat - a.base.toNat, Aperture.offset_eq_ok.2 (Nat.add_sub_cancel' hbase), ?_, ?_⟩
  · rw [htake]
    omega
  · rw [htake]
    exact hread

namespace Attempt

theorem wellFormed_barePlan (a : Attempt) (info : FileInfo) : (a.barePlan info).WellFormed :=
  (Plan.ofBare_eq_ok (Plan.ofBare_eq a.running.other a.bareTarget info.size info.checksum)).1

/-- What is needed of the image behind the file info. -/
theorem accepted_barePlan {a : Attempt} {info : FileInfo} {C : Bytes} {size : Nat} :
    a.Accepted C (a.barePlan info) size ↔ a.aperture.CanErase size a.bareTarget info.size ∧
      (info.size = 0 ∨ info.size.toNat ≤ C.length) ∧
      Checksum.of (C.take info.size.toNat) = info.checksum := by
  constructor
  · rintro ⟨hcan, hwhole, hsum⟩
    refine ⟨Placement.canErase_bare.1 (hcan _ List.mem_cons_self), ?_, hsum _ List.mem_cons_self⟩
    have h := hwhole _ List.mem_cons_self
    rw [Placement.Whole, Placement.span_bare, Placement.streamStop_bare] at h
    exact h.imp_left fun h => UInt32.toNat_inj.1 h
  · rintro ⟨hcan, hwhole, hsum⟩
    refine ⟨fun p hp => ?_, fun p hp => ?_, fun p hp => ?_⟩ <;>
      obtain rfl := List.mem_singleton.1 hp
    · exact Placement.canErase_bare.2 hcan
    · rw [Placement.Whole, Placement.span_bare, Placement.streamStop_bare]
      exact hwhole.imp_left fun h => by rw [h]; rfl
    · exact hsum

theorem finish_bare_ends (a : Attempt) (info : FileInfo) (s : Summary) {b : Board}
    (hf : b.Faultless) : Ends (a.finish .bare (a.barePlan info) s) b fun o b' => o = .ok () ∧
      b'.chip = b.chip ∧ (b.store.put .activeBank a.running.other.toWord).Same b'.store := by
  refine (Board.writeSlot_ends hf.store.plain .activeBank a.running.other.toWord).mono
    fun o b' h => ?_
  obtain ⟨hchip, h⟩ := h
  cases o with
  | ok v => exact ⟨rfl, hchip, h.1⟩
  | error e => exact absurd hf.store h.2.2.2

variable [Link σ]

theorem installBare_verdict (a : Attempt) (info : FileInfo) {r : Rig σ} {C : Bytes}
    (hserves : Link.Serves r.link C) (hbuffer : r.buffer ≠ []) (hf : r.board.Faultless)
    (hs : a.aperture.base.toNat + r.board.chip.size ≤ UInt32.size) :
    Ends (a.install .bare (a.barePlan info)) r fun o r' => match o with
      | .ok _ => a.Accepted C (a.barePlan info) r.board.chip.size ∧
          (∀ p ∈ (a.barePlan info).placements, p.Loaded a.aperture r'.board.chip C) ∧
          (r.board.store.put .activeBank a.running.other.toWord).Same r'.board.store
      | .error _ => ¬a.Accepted C (a.barePlan info) r.board.chip.size := by
  have hdelivered : Ends (a.deliver (a.barePlan info)) r _ := a.deliver_verdict hserves
    (Nat.zero_le _) hbuffer hf hs (a.wellFormed_barePlan info) (fun p hp => by
      obtain rfl := List.mem_singleton.1 hp; exact Placement.regular_bare)
    (List.pairwise_singleton _ _)
  rw [install_eq]
  refine hdelivered.bind (fun s r₁ h => ?_) fun f r₁ h => h.2.not_accepted
  obtain ⟨hkept, haccepted, hloaded⟩ := h
  refine Ends.during (Ends.onBoard ((a.finish_bare_ends info s hkept.faultless).mono
    fun o b h => ?_))
  obtain ⟨rfl, hchip, hstore⟩ := h
  exact ⟨haccepted, hchip ▸ hloaded, (hkept.store.put _ _).trans hstore⟩

/-- A bare image that is installed: bank 2 can be where it is configured, the file info and the
image are whole, there is room for the image, its sectors can be erased, and its bytes sum up. -/
structure AcceptsBare (a : Attempt) (b : Board) (D : Bytes) : Prop where
  settleable : a.Settleable b
  fits : a.Fits (.leading D)
  whole : FileInfo.length + (FileInfo.leading D).size.toNat ≤ D.length
  erases : ∃ b', a.aperture.erase a.bareTarget (FileInfo.leading D).size b =
    .ok () b'
  checksum : Checksum.of ((D.drop FileInfo.length).take
    (FileInfo.leading D).size.toNat) =
      (FileInfo.leading D).checksum

theorem acceptsBare_iff {a : Attempt} {b : Board} {D : Bytes} (hf : b.chip.Faultless) :
    a.AcceptsBare b D ↔ a.PlansBare b D ∧ a.Accepted (D.drop FileInfo.length)
      (a.barePlan (.leading D)) b.chip.size := by
  rw [accepted_barePlan, ← Aperture.erases_iff hf, List.length_drop]
  constructor
  · rintro ⟨hsettleable, hfits, hwhole, herases, hsum⟩
    exact ⟨⟨hsettleable, by omega, hfits⟩, herases, .inr (by omega), hsum⟩
  · rintro ⟨⟨hsettleable, hinfo, hfits⟩, herases, hwhole, hsum⟩
    have hsize := hwhole.resolve_left hfits.size_ne
    exact ⟨hsettleable, hfits, by omega, herases, hsum⟩

/-- What an attempt at a bare image comes to. -/
inductive BareVerdict (a : Attempt) (b : Board) (D : Bytes) : Report × Rig σ → Prop where
  | installed {r' : Rig σ} (haccepts : a.AcceptsBare b D)
      (hshows : a.aperture.Shows r'.board.chip a.bareTarget ((D.drop FileInfo.length).take
        (FileInfo.leading D).size.toNat))
      (hbank2 : r'.board.store.value? .bank2Address = some a.config.defaultBank2Address)
      (hactive : r'.board.store.value? .activeBank = some a.running.other.toWord) :
      BareVerdict a b D (⟨.commitSuccess, .reboot a.running.other⟩, r')
  | refused {stage : Stage} {f : Failure} {rolledBack : Bool} {r' : Rig σ}
      (h : ¬a.AcceptsBare b D) : BareVerdict a b D (⟨stage, .failed f rolledBack⟩, r')

theorem run_bareVerdict (a : Attempt) (hflow : a.config.flow = .bare) {r : Rig σ} {D : Bytes}
    {n : Nat} (hD : Link.Serves r.link D)
    (ht : Link.Takes [a.running.other.toWord.toUInt8] r.link n) (hbuffer : r.buffer ≠ [])
    (hf : r.board.Faultless)
    (hs : a.aperture.base.toNat + r.board.chip.size ≤ UInt32.size) :
    a.BareVerdict r.board D (a.run r) := by
  have haccepts := acceptsBare_iff (a := a) (D := D) hf.chip
  have hplan : Ends (a.plan a.config.flow) r fun o r₁ => match o with
      | .ok v => a.PlansBare r.board D ∧ v.1 = a.barePlan (.leading D) ∧
          r.board.chip.Same r₁.board.chip ∧
          (r.board.store.put .bank2Address a.config.defaultBank2Address).Same r₁.board.store ∧
          r₁.buffer = r.buffer ∧ Link.Serves r₁.link (D.drop FileInfo.length)
      | .error _ => ¬a.PlansBare r.board D := by
    rw [hflow]
    exact (a.planBare_verdict hf ht hD).bind (fun _ _ h => Ends.pure h) fun _ _ h => h
  obtain ⟨f, r₁, hx, hrun⟩ | ⟨plan, header, r₁, hx, hrun⟩ := a.run_cases r
  · rw [hrun]
    exact .refused fun h => hplan.error hx (haccepts.1 h).1
  obtain ⟨hplans, rfl, hchip, hstore, hbuf, hserves⟩ := hplan.ok hx
  have hf₁ : r₁.board.Faultless := ⟨hchip.faultless hf.chip,
    hstore.faultless (Store.faultless_put hf.store _ _)⟩
  have hinstall := a.installBare_verdict (.leading D) hserves (hbuf ▸ hbuffer) hf₁
    (hchip.size ▸ hs)
  rw [hflow] at hrun
  obtain ⟨r₂, hy, hrun⟩ | ⟨f, r₂, hy, hrun⟩ := hrun
  · obtain ⟨haccepted, hloaded, hactive⟩ := hinstall.ok hy
    rw [hchip.size] at haccepted
    have haccepts := (acceptsBare_iff hf.chip).2 ⟨hplans, haccepted⟩
    have hwhole := haccepts.whole
    have hbank2 := Store.value?_put hf.store.plain .bank2Address .bank2Address
      a.config.defaultBank2Address
    have hput := Store.value?_put hf₁.store.plain .activeBank
    rw [← hstore.value?] at hbank2
    rw [hrun]
    refine .installed haccepts ((hloaded _ List.mem_cons_self).shows ?_)
      ((hactive.value? _).trans ((hput _ _).trans hbank2)) ((hactive.value? _).trans (hput _ _))
    rw [List.length_drop]
    omega
  · have hno : ¬a.AcceptsBare r.board D := fun h =>
      hinstall.error hy (hchip.size ▸ ((acceptsBare_iff hf.chip).1 h).2)
    obtain ⟨o, b, habandon⟩ := (a.abandon_ends (a.barePlan (.leading D)) f r₂).outcome
    rw [hrun, habandon]
    exact .refused hno

/-- A bare image from end to end. The attempt ends with a reboot exactly if the image is accepted;
it then is in flash, and the bank that did not run is the active one. What is sent in an attempt
that gets past the checks of bank 2 is the byte for the target, and this before anything is read. -/
theorem run_bare_iff (a : Attempt) (hflow : a.config.flow = .bare) {r : Rig σ} {D : Bytes}
    {n : Nat} (hD : Link.Serves r.link D)
    (ht : Link.Takes [a.running.other.toWord.toUInt8] r.link n) (hbuffer : r.buffer ≠ [])
    (hf : r.board.Faultless)
    (hs : a.aperture.base.toNat + r.board.chip.size ≤ UInt32.size) :
    ((a.run r).1 = ⟨.commitSuccess, .reboot a.running.other⟩ ↔ a.AcceptsBare r.board D) ∧
    ((a.run r).1.isReboot = true →
      a.aperture.Shows (a.run r).2.board.chip a.bareTarget ((D.drop FileInfo.length).take
        (FileInfo.leading D).size.toNat) ∧
      (a.run r).2.board.store.value? .bank2Address = some a.config.defaultBank2Address ∧
      (a.run r).2.board.store.value? .activeBank = some a.running.other.toWord) ∧
    (Link.Notes σ → a.Settleable r.board →
      Sends [a.running.other.toWord.toUInt8] n r.board (a.run r).2.board) := by
  have hverdict := a.run_bareVerdict hflow hD ht hbuffer hf hs
  refine ⟨?_, ?_, fun hn hsettleable => ?_⟩
  · generalize a.run r = x at hverdict ⊢
    cases hverdict with
    | installed haccepts => exact iff_of_true rfl haccepts
    | refused hno => exact iff_of_false (by simp) hno
  · generalize a.run r = x at hverdict ⊢
    intro hreboot
    cases hverdict with
    | installed _ hshows hbank2 hactive => exact ⟨hshows, hbank2, hactive⟩
    | refused => cases hreboot
  · have hsettled := a.settleBank2_verdict hf
    cases hx : a.settleBank2 r.board with
    | ok v b => exact a.run_bare_sends hn hflow hx ht
    | error e b => exact absurd hsettleable (hsettled.error hx).2

end Attempt

namespace Sample

/-- A device whose bank 2 runs, and three bytes for bank 1. -/
def bareUpdate : Rig Scripted where
  link := { data := FileInfo.encode ⟨6, 0, 3⟩ ++ [1, 2, 3], script := [.serve 2, .serve 7] }
  board := bareBoard 0x2000 (.memory { bank2Address := 0x1000, activeBank := 1 })
  buffer := [0, 0]

end Sample

theorem Attempt.run_bare_iff_sample :
    (Sample.bare 0 0x2000).config.flow = .bare ∧
    Link.Serves Sample.bareUpdate.link (FileInfo.encode ⟨6, 0, 3⟩ ++ [1, 2, 3]) ∧
    Link.Takes [0] Sample.bareUpdate.link 1 ∧ Sample.bareUpdate.board.Faultless ∧
    ((Sample.bare 0 0x2000).run Sample.bareUpdate).1 = ⟨.commitSuccess, .reboot .bank1⟩ ∧
    (Sample.bare 0 0x2000).AcceptsBare Sample.bareUpdate.board
      (FileInfo.encode ⟨6, 0, 3⟩ ++ [1, 2, 3]) ∧
    (Sample.bare 0 0x2000).aperture.Shows
      ((Sample.bare 0 0x2000).run Sample.bareUpdate).2.board.chip 0 [1, 2, 3] ∧
    Attempt.Sends [0] 1 Sample.bareUpdate.board
      ((Sample.bare 0 0x2000).run Sample.bareUpdate).2.board := by
  have hD : Link.Serves Sample.bareUpdate.link (FileInfo.encode ⟨6, 0, 3⟩ ++ [1, 2, 3]) :=
    Scripted.serves (by simp [Sample.bareUpdate]) rfl
  have ht : Link.Takes [0] Sample.bareUpdate.link 1 := ⟨rfl, by decide, rfl⟩
  have hf : Sample.bareUpdate.board.Faultless := ⟨fun _ _ => rfl, rfl, fun _ => rfl, fun _ => rfl⟩
  have hr : ((Sample.bare 0 0x2000).run Sample.bareUpdate).1 =
      ⟨.commitSuccess, .reboot .bank1⟩ := by decide +kernel
  obtain ⟨hiff, hreboot, hsends⟩ :=
    (Sample.bare 0 0x2000).run_bare_iff rfl hD ht (by decide) hf (by decide)
  have haccepts := hiff.1 hr
  exact ⟨rfl, hD, ht, hf, hr, haccepts, (hreboot (by rw [hr]; rfl)).1,
    hsends Scripted.notes haccepts.settleable⟩

end DualBank
