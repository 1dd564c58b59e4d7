import DualBank.Proofs.Alike
import DualBank.Proofs.Failure
import DualBank.Proofs.Soundness

/-! An attempt does not depend on the portions that a connection brings its bytes in, nor on the
size of the buffer that they go through. Two attempts over the same bytes are run next to each
other. They read, write and check in different places, but at the end of each stage their devices
hold the same, and so they come to one report. -/
namespace DualBank

variable {ε σ₁ σ₂ α β : Type}

/-- The devices of two rigs hold the same, and no call on them is set to fail. -/
structure Rig.Level (r₁ : Rig σ₁) (r₂ : Rig σ₂) : Prop where
  same : r₁.board.Same r₂.board
  faultless : r₁.board.Faultless

/-- Two actions end alike and leave level rigs, so that `P` holds of a common answer. -/
def EndLevel (x₁ : EStateM ε (Rig σ₁) α) (r₁ : Rig σ₁) (x₂ : EStateM ε (Rig σ₂) α) (r₂ : Rig σ₂)
    (P : α → Rig σ₁ → Rig σ₂ → Prop) : Prop :=
  EndAlike x₁ r₁ x₂ r₂ fun o t₁ t₂ => t₁.Level t₂ ∧ ∀ v, o = .ok v → P v t₁ t₂

namespace EndLevel

variable {x₁ : EStateM ε (Rig σ₁) α} {x₂ : EStateM ε (Rig σ₂) α}
  {f₁ : α → EStateM ε (Rig σ₁) β} {f₂ : α → EStateM ε (Rig σ₂) β} {r₁ : Rig σ₁} {r₂ : Rig σ₂}
  {P : α → Rig σ₁ → Rig σ₂ → Prop} {Q : β → Rig σ₁ → Rig σ₂ → Prop}

theorem mono {P' : α → Rig σ₁ → Rig σ₂ → Prop} (h : EndLevel x₁ r₁ x₂ r₂ P)
    (hp : ∀ v t₁ t₂, t₁.Level t₂ → P v t₁ t₂ → P' v t₁ t₂) : EndLevel x₁ r₁ x₂ r₂ P' :=
  EndAlike.mono h fun _ t₁ t₂ ⟨hl, hv⟩ => ⟨hl, fun v ho => hp v t₁ t₂ hl (hv v ho)⟩

theorem pure {v : α} (hl : r₁.Level r₂) (h : P v r₁ r₂) :
    EndLevel (Pure.pure v : EStateM ε (Rig σ₁) α) r₁ (Pure.pure v) r₂ P :=
  EndAlike.pure ⟨hl, fun w hw => by cases hw; exact h⟩

theorem ofExcept {y : Except ε α} (hl : r₁.Level r₂) (h : ∀ v, y = .ok v → P v r₁ r₂) :
    EndLevel (MonadExcept.ofExcept y : EStateM ε (Rig σ₁) α) r₁ (MonadExcept.ofExcept y) r₂ P :=
  EndAlike.ofExcept ⟨hl, h⟩

theorem bind (h : EndLevel x₁ r₁ x₂ r₂ P)
    (hf : ∀ v t₁ t₂, t₁.Level t₂ → P v t₁ t₂ → EndLevel (f₁ v) t₁ (f₂ v) t₂ Q) :
    EndLevel (x₁ >>= f₁) r₁ (x₂ >>= f₂) r₂ Q :=
  EndAlike.bind h (fun v t₁ t₂ ⟨hl, hv⟩ => hf v t₁ t₂ hl (hv v rfl))
    fun _ _ _ ⟨hl, _⟩ => ⟨hl, fun _ hw => nomatch hw⟩

theorem guard {c : Prop} [Decidable c] {e : ε} {k₁ : α → EStateM ε (Rig σ₁) β}
    {k₂ : α → EStateM ε (Rig σ₂) β} {y₁ : EStateM ε (Rig σ₁) β} {y₂ : EStateM ε (Rig σ₂) β}
    (hl : r₁.Level r₂) (hpass : ¬c → EndLevel y₁ r₁ y₂ r₂ Q) :
    EndLevel (if c then MonadExcept.throw e >>= k₁ else y₁) r₁
      (if c then MonadExcept.throw e >>= k₂ else y₂) r₂ Q :=
  EndAlike.guard (fun _ => ⟨hl, fun _ hw => nomatch hw⟩) hpass

theorem during {stage : Stage} {x₁ : Rig.Action σ₁ α} {x₂ : Rig.Action σ₂ α}
    (h : EndLevel x₁ r₁ x₂ r₂ P) :
    EndLevel (Attempt.during stage x₁) r₁ (Attempt.during stage x₂) r₂ P :=
  EndAlike.during (EndAlike.mono h fun o _ _ ⟨hl, hv⟩ => ⟨hl, fun v ho => by
    cases o with
    | ok w => cases ho; exact hv _ rfl
    | error e => cases ho⟩)

/-- The device's part leaves the connections and the buffers alone. -/
theorem onBoard {x : Board.Action α} (hx : Board.Congruent x) (hl : r₁.Level r₂) :
    EndLevel (Rig.onBoard x) r₁ (Rig.onBoard x) r₂ fun _ t₁ t₂ =>
      (t₁.link = r₁.link ∧ t₁.buffer = r₁.buffer) ∧ t₂.link = r₂.link ∧ t₂.buffer = r₂.buffer :=
  EndAlike.onBoard ((hx _ _ hl.same hl.faultless).mono fun _ _ _ ⟨hs, hf⟩ =>
    ⟨⟨hs, hf⟩, fun _ _ => ⟨⟨rfl, rfl⟩, rfl, rfl⟩⟩)

end EndLevel

/-- A call that both connections answer in the same way. -/
theorem Rig.onLink_level {r₁ : Rig σ₁} {r₂ : Rig σ₂} {call₁ : σ₁ → Answer IoKind σ₁ α}
    {call₂ : σ₂ → Answer IoKind σ₂ α} (hl : r₁.Level r₂)
    (hr : (call₁ r₁.link).result = (call₂ r₂.link).result) :
    EndLevel (onLink call₁) r₁ (onLink call₂) r₂ fun _ t₁ t₂ =>
      (t₁.link = (call₁ r₁.link).link ∧ t₁.buffer = r₁.buffer) ∧
        t₂.link = (call₂ r₂.link).link ∧ t₂.buffer = r₂.buffer := by
  have hheard : (r₁.hear (call₁ r₁.link)).Level (r₂.hear (call₂ r₂.link)) :=
    ⟨⟨hl.same.chip, hl.same.store⟩, ⟨hl.faultless.chip, hl.faultless.store⟩⟩
  unfold EndLevel EndAlike Ends onLink
  dsimp only
  rw [← hr]
  cases (call₁ r₁.link).result with
  | ok v => exact ⟨rfl, hheard, fun _ _ => ⟨⟨rfl, rfl⟩, rfl, rfl⟩⟩
  | error kind => exact ⟨rfl, hheard, fun _ hv => nomatch hv⟩

/-- What a connection answers when some bytes are sent to it. -/
def Link.sending {σ : Type} [Link σ] (b : Bytes) (s : σ) : Except IoKind Nat × Except IoKind Unit :=
  ((Link.write b s).result, (Link.flush (Link.write b s).link).result)

/-- A buffer has room for a header block, if there is to be one. -/
def Attempt.RoomFor (a : Attempt) (capacity : Nat) (D : Bytes) : Prop :=
  Prologue.length ≤ capacity ∧ (a.config.flow = .container → ∀ d,
    Prologue.declared (a.config.stream .container D) = .ok d → d ≤ capacity)

/-! ## Planning -/

section
variable [Link σ₁] [Link σ₂]

/-- Both connections have yet to bring `D`, and the buffers are of these sizes. -/
structure Rig.Abreast (D : Bytes) (n₁ n₂ : Nat) (r₁ : Rig σ₁) (r₂ : Rig σ₂) : Prop
    extends Rig.Level r₁ r₂ where
  serves₁ : Link.Serves r₁.link D
  serves₂ : Link.Serves r₂.link D
  length₁ : r₁.buffer.length = n₁
  length₂ : r₂.buffer.length = n₂

variable {r₁ : Rig σ₁} {r₂ : Rig σ₂} {D : Bytes} {n₁ n₂ : Nat}

theorem FileInfo.receive_level (h : r₁.Abreast D n₁ n₂ r₂) :
    EndLevel receive r₁ receive r₂ fun _ => Rig.Abreast (D.drop length) n₁ n₂ := by
  refine EndAlike.of_ends (receive_ends h.serves₁) (receive_ends h.serves₂)
    fun ⟨hb₁, hbuf₁, hs₁, ho₁⟩ ⟨hb₂, hbuf₂, hs₂, ho₂⟩ => ?_
  have hl : Rig.Level _ _ := ⟨(hb₁.symm.trans h.same).trans hb₂, hb₁.faultless h.faultless⟩
  exact ⟨ho₁.trans ho₂.symm, hl, fun _ _ =>
    ⟨hl, hs₁, hs₂, hbuf₁ ▸ h.length₁, hbuf₂ ▸ h.length₂⟩⟩

/-- Two connections that lead with the same header block. -/
theorem Rig.receiveHeader_level_of {D₁ D₂ : Bytes} (hl : r₁.Level r₂)
    (hD₁ : Link.Serves r₁.link D₁) (hD₂ : Link.Serves r₂.link D₂)
    (heq : headerBlock r₁.buffer.length D₁ = headerBlock r₂.buffer.length D₂) :
    EndLevel receiveHeader r₁ receiveHeader r₂ fun _ _ _ => True := by
  refine EndAlike.of_ends (receiveHeader_ends hD₁) (receiveHeader_ends hD₂)
    fun ⟨ho₁, hb₁, _⟩ ⟨ho₂, hb₂, _⟩ => ?_
  refine ⟨?_, ⟨(hb₁.symm.trans hl.same).trans hb₂, hb₁.faultless hl.faultless⟩, fun _ _ => trivial⟩
  rw [ho₁, ho₂, heq]

theorem Rig.receiveHeader_level (h : r₁.Abreast D n₁ n₂ r₂)
    (hblock : headerBlock n₁ D = headerBlock n₂ D) :
    EndLevel receiveHeader r₁ receiveHeader r₂ fun _ _ _ => True :=
  receiveHeader_level_of h.toLevel h.serves₁ h.serves₂ (by rw [h.length₁, h.length₂, hblock])

namespace Attempt

theorem shakeHands_level {target : Bank} (h : r₁.Abreast D n₁ n₂ r₂)
    (hsend : Link.sending [target.toWord.toUInt8] r₁.link =
      Link.sending [target.toWord.toUInt8] r₂.link) :
    EndLevel (shakeHands target) r₁ (shakeHands target) r₂ fun _ => Rig.Abreast D n₁ n₂ := by
  obtain ⟨hwrite, hflush⟩ := Prod.mk.inj hsend
  refine (Rig.onLink_level h.toLevel hwrite).bind fun taken t₁ t₂ hl hafter => ?_
  obtain ⟨⟨hlink₁, hbuf₁⟩, hlink₂, hbuf₂⟩ := hafter
  rw [← hlink₁, ← hlink₂] at hflush
  refine EndLevel.guard hl fun _ => (Rig.onLink_level hl hflush).mono fun _ u₁ u₂ hl' hlast => ?_
  obtain ⟨⟨hlink₁', hbuf₁'⟩, hlink₂', hbuf₂'⟩ := hlast
  have hs₁ := Link.honest_serves.flush (Link.honest_serves.write [target.toWord.toUInt8] h.serves₁)
  have hs₂ := Link.honest_serves.flush (Link.honest_serves.write [target.toWord.toUInt8] h.serves₂)
  rw [← hlink₁, ← hlink₁'] at hs₁
  rw [← hlink₂, ← hlink₂'] at hs₂
  exact ⟨hl', hs₁, hs₂, hbuf₁' ▸ hbuf₁ ▸ h.length₁, hbuf₂' ▸ hbuf₂ ▸ h.length₂⟩

/-- Two rigs are ready for a plan: the connections are right behind what was read for it. -/
def Ready (C : Bytes) (n₁ n₂ : Nat) (plan : Plan) (r₁ : Rig σ₁) (r₂ : Rig σ₂) : Prop :=
  plan.streamStart.toNat ≤ C.length ∧ r₁.Abreast (C.drop plan.streamStart.toNat) n₁ n₂ r₂

/-- The rest of the planning depends on the header block alone. -/
theorem planBlock_level_of (a : Attempt)
    (h : EndLevel Rig.receiveHeader r₁ Rig.receiveHeader r₂ fun _ _ _ => True) :
    EndLevel a.planBlock r₁ a.planBlock r₂ fun _ _ _ => True := by
  refine h.during.bind fun block t₁ t₂ hl _ => ?_
  refine (EndLevel.ofExcept (P := fun _ _ _ => True) hl fun _ _ => trivial).during.bind
    fun header u₁ u₂ hl _ => ?_
  refine (EndLevel.onBoard (.resolve _ _ _ _) hl).during.bind fun address v₁ v₂ hl _ => ?_
  refine (EndLevel.ofExcept (P := fun _ _ _ => True) hl fun _ _ => trivial).during.bind
    fun plan w₁ w₂ hl _ => ?_
  exact EndLevel.pure hl trivial

theorem planBlock_level (a : Attempt) {C : Bytes} (h : r₁.Abreast C n₁ n₂ r₂)
    (hblock : Rig.headerBlock n₁ C = Rig.headerBlock n₂ C) :
    EndLevel a.planBlock r₁ a.planBlock r₂ fun v => Ready C n₁ n₂ v.1 := by
  have hlevel := a.planBlock_level_of (Rig.receiveHeader_level h hblock)
  -- Where the connections are is known of each run by itself.
  refine (EndAlike.yields hlevel (a.planBlock_yields h.serves₁ h.faultless.store.plain)
    (a.planBlock_yields h.serves₂ (h.same.faultless h.faultless).store.plain)).mono
    fun o t₁ t₂ hboth => ?_
  obtain ⟨⟨hl, _⟩, hplanned⟩ := hboth
  refine ⟨hl, fun v ho => ?_⟩
  obtain ⟨h₁, h₂⟩ := hplanned v ho
  exact ⟨h₁.streamStart_le, hl, h₁.serves, h₂.serves, h₁.buffer.trans h.length₁,
    h₂.buffer.trans h.length₂⟩

/-- The buffers have room for the same header block, or for none. -/
def SameRoom (a : Attempt) (D : Bytes) (n₁ n₂ : Nat) : Prop :=
  Rig.headerBlock n₁ (a.config.stream .container D) =
    Rig.headerBlock n₂ (a.config.stream .container D)

theorem planContainer_level (a : Attempt) (h : r₁.Abreast D n₁ n₂ r₂)
    (hroom : a.SameRoom D n₁ n₂) : EndLevel a.planContainer r₁ a.planContainer r₂ fun v =>
      Ready (a.config.stream .container D) n₁ n₂ v.1 := by
  rw [planContainer_eq, planContainer_eq]
  unfold SameRoom at hroom
  simp only [Config.stream] at hroom ⊢
  by_cases hinfo : a.config.expectFileInfo = true
  · rw [if_pos hinfo] at hroom
    rw [if_pos hinfo, if_pos hinfo, if_pos hinfo]
    exact (FileInfo.receive_level h).during.bind fun _ _ _ _ h => a.planBlock_level h hroom
  · rw [if_neg hinfo] at hroom
    rw [if_neg hinfo, if_neg hinfo, if_neg hinfo]
    exact a.planBlock_level h hroom

theorem planBare_level (a : Attempt) (h : r₁.Abreast D n₁ n₂ r₂)
    (hsend : Link.sending [a.running.other.toWord.toUInt8] r₁.link =
      Link.sending [a.running.other.toWord.toUInt8] r₂.link) :
    EndLevel a.planBare r₁ a.planBare r₂ (Ready (a.config.stream .bare D) n₁ n₂) := by
  refine (EndLevel.onBoard (.settleBank2 a) h.toLevel).during.bind
    fun _ t₁ t₂ hl ⟨⟨hlink₁, hbuf₁⟩, hlink₂, hbuf₂⟩ => ?_
  have ht : t₁.Abreast D n₁ n₂ t₂ := ⟨hl, hlink₁ ▸ h.serves₁, hlink₂ ▸ h.serves₂,
    hbuf₁ ▸ h.length₁, hbuf₂ ▸ h.length₂⟩
  rw [← hlink₁, ← hlink₂] at hsend
  refine (shakeHands_level ht hsend).during.bind fun _ u₁ u₂ _ hu => ?_
  refine (FileInfo.receive_level hu).during.bind fun info w₁ w₂ hl hw => ?_
  refine EndLevel.guard hl fun _ => ?_
  have hlast : ∀ {v₁ : Rig σ₁} {v₂ : Rig σ₂} (address : Word),
      v₁.Abreast (D.drop FileInfo.length) n₁ n₂ v₂ →
      EndLevel (Attempt.during .resolveBank (MonadExcept.ofExcept
          (Plan.ofBare a.running.other address info.size info.checksum))) v₁
        (Attempt.during .resolveBank (MonadExcept.ofExcept
          (Plan.ofBare a.running.other address info.size info.checksum))) v₂
        (Ready (a.config.stream .bare D) n₁ n₂) := by
    intro v₁ v₂ address hv
    refine (EndLevel.ofExcept hv.toLevel fun plan hplan => ?_).during
    have hstart : plan.streamStart.toNat = 0 := by rw [(Plan.ofBare_eq_ok hplan).2]; rfl
    unfold Ready
    rw [hstart]
    exact ⟨Nat.zero_le _, hv⟩
  cases hother : a.running.other with
  | bank1 =>
    rw [hother] at hlast
    exact (EndLevel.ofExcept (P := fun _ => Rig.Abreast (D.drop FileInfo.length) n₁ n₂) hl
      fun _ _ => hw).during.bind fun _ _ _ _ hv => hlast _ hv
  | bank2 =>
    rw [hother] at hlast
    exact hlast _ hw

theorem plan_level_of (a : Attempt) (h : r₁.Abreast D n₁ n₂ r₂)
    (hsend : a.config.flow = .bare → Link.sending [a.running.other.toWord.toUInt8] r₁.link =
      Link.sending [a.running.other.toWord.toUInt8] r₂.link)
    (hroom : a.config.flow = .container → a.SameRoom D n₁ n₂) :
    EndLevel (a.plan a.config.flow) r₁ (a.plan a.config.flow) r₂ fun v =>
      Ready (a.config.stream a.config.flow D) n₁ n₂ v.1 := by
  cases hflow : a.config.flow with
  | container =>
    exact (a.planContainer_level h (hroom hflow)).bind fun v _ _ hl hr => EndLevel.pure hl hr
  | bare => exact (a.planBare_level h (hsend hflow)).bind fun v _ _ hl hr => EndLevel.pure hl hr

theorem plan_level (a : Attempt) (h : r₁.Abreast D n₁ n₂ r₂)
    (hsend : a.config.flow = .bare → Link.sending [a.running.other.toWord.toUInt8] r₁.link =
      Link.sending [a.running.other.toWord.toUInt8] r₂.link)
    (hn₁ : a.RoomFor n₁ D) (hn₂ : a.RoomFor n₂ D) :
    EndLevel (a.plan a.config.flow) r₁ (a.plan a.config.flow) r₂ fun v =>
      Ready (a.config.stream a.config.flow D) n₁ n₂ v.1 :=
  a.plan_level_of h hsend fun hflow =>
    Rig.headerBlock_congr ⟨hn₁.1, hn₁.2 hflow⟩ ⟨hn₂.1, hn₂.2 hflow⟩

/-! ## Installing -/

theorem erase_level (a : Attempt) {plan : Plan} {C : Bytes} (h : Ready C n₁ n₂ plan r₁ r₂)
    (hw : plan.WellFormed) :
    EndLevel (Rig.onBoard (Board.eraseTargets a.aperture plan.placements)) r₁
      (Rig.onBoard (Board.eraseTargets a.aperture plan.placements)) r₂ fun _ t₁ t₂ =>
      Ready C n₁ n₂ plan t₁ t₂ ∧ a.Erased plan r₁ t₁ := by
  obtain ⟨hq, h⟩ := h
  have herased : Yields (Rig.onBoard (Board.eraseTargets a.aperture plan.placements)) r₂
      fun _ _ => True := fun _ _ _ => trivial
  refine (EndAlike.yields (EndLevel.onBoard (.eraseTargets _ _) h.toLevel)
    (a.erase_yields h.faultless hw) herased).mono fun o t₁ t₂ hafter => ?_
  obtain ⟨⟨hl, hrest⟩, herased⟩ := hafter
  refine ⟨hl, fun v ho => ⟨⟨hq, ?_⟩, (herased v ho).1⟩⟩
  obtain ⟨⟨hlink₁, hbuf₁⟩, hlink₂, hbuf₂⟩ := hrest v ho
  exact ⟨hl, hlink₁ ▸ h.serves₁, hlink₂ ▸ h.serves₂, hbuf₁ ▸ h.length₁, hbuf₂ ▸ h.length₂⟩

/-- Both transfers load the same images into chips that hold the same. -/
theorem transfer_level (a : Attempt) {plan : Plan} {C : Bytes} (h : Ready C n₁ n₂ plan r₁ r₂)
    (hn₁ : 0 < n₁) (hn₂ : 0 < n₂) (hh : a.aperture.held = false)
    (hs : ∀ p ∈ plan.placements, p.Addressed) (hw : plan.WellFormed)
    (hclear : ∀ p ∈ plan.placements, a.aperture.Clear r₁.board.chip p)
    (hapart : plan.placements.Pairwise Placement.Apart) :
    EndLevel (Rig.transfer a.aperture plan) r₁ (Rig.transfer a.aperture plan) r₂ fun s t₁ t₂ =>
      Plan.brought C plan.streamStart.toNat {} plan.placements = .ok s ∧
      t₁.buffer ≠ [] ∧ t₂.buffer ≠ [] ∧ t₁.board.chip.size = r₁.board.chip.size := by
  obtain ⟨hq, h⟩ := h
  have hbuffer₁ : r₁.buffer ≠ [] := List.length_pos_iff.1 (h.length₁ ▸ hn₁)
  have hbuffer₂ : r₂.buffer ≠ [] := List.length_pos_iff.1 (h.length₂ ▸ hn₂)
  have hclear₂ : ∀ p ∈ plan.placements, a.aperture.Clear r₂.board.chip p :=
    fun p hp => (hclear p hp).same h.same.chip
  refine EndAlike.of_ends
    (Rig.transfer_ends h.serves₁ hq hbuffer₁ h.faultless hh hs hw hclear hapart)
    (Rig.transfer_ends h.serves₂ hq hbuffer₂ (h.same.faultless h.faultless) hh hs hw hclear₂
      hapart) fun {o₁ o₂ t₁ t₂} h₁ h₂ => ?_
  obtain ⟨ho₁, hstore₁, hchip₁, hbuf₁⟩ := h₁
  obtain ⟨ho₂, hstore₂, hchip₂, hbuf₂⟩ := h₂
  have hchips := (hchip₁.symm.trans (Rig.load_same h.same.chip)).trans hchip₂
  have hstores := (hstore₁.symm.trans h.same.store).trans hstore₂
  have hfaultless : t₁.board.Faultless :=
    ⟨hchip₁.faultless (Chip.faultless_load h.faultless.chip), hstore₁.faultless h.faultless.store⟩
  refine ⟨ho₁.trans ho₂.symm, ⟨⟨hchips, hstores⟩, hfaultless⟩, fun s ho => ?_⟩
  subst ho
  have hok₂ : o₂.isOk = true := by rw [ho₂, ← ho₁]; rfl
  exact ⟨ho₁.symm, hbuf₁ rfl, hbuf₂ hok₂, hchip₁.size.trans (Chip.size_load _ _)⟩

omit [Link σ₁] [Link σ₂] in
/-- Both checks judge what the chips hold. -/
theorem verify_level {a : Aperture} {s : Summary} {ps : List Placement} (h : r₁.Level r₂)
    (hh : a.held = false) (hs : ∀ p ∈ ps, p.Addressed)
    (hbuffer₁ : r₁.buffer ≠ []) (hbuffer₂ : r₂.buffer ≠ [])
    (hclear : ∀ p ∈ ps, a.base.toNat ≤ p.destination.toNat ∧
      p.destination.toNat + p.payloadLen.toNat ≤ a.base.toNat + r₁.board.chip.size)
    (hmatches : ∀ p ∈ ps, s.Matches p) :
    EndLevel (Rig.verify a s ps) r₁ (Rig.verify a s ps) r₂ fun _ _ _ => True := by
  have hsize : r₂.board.chip.size = r₁.board.chip.size := h.same.chip.size
  refine EndAlike.of_ends
    (Rig.verify_ends h.faultless.chip hh hs hbuffer₁ (fun p hp => (hclear p hp).1)
      (fun p hp => (hclear p hp).2) hmatches)
    (Rig.verify_ends (h.same.faultless h.faultless).chip hh hs hbuffer₂
      (fun p hp => (hclear p hp).1) (fun p hp => hsize ▸ (hclear p hp).2) hmatches)
    fun {o₁ o₂ t₁ t₂} h₁ h₂ => ?_
  obtain ⟨hb₁, hj₁⟩ := h₁
  obtain ⟨hb₂, hj₂⟩ := h₂
  have hl : t₁.Level t₂ := ⟨(hb₁.symm.trans h.same).trans hb₂, hb₁.faultless h.faultless⟩
  exact ⟨hj₁.unique (hj₂.same h.same.chip), hl, fun _ _ => trivial⟩

theorem install_level (a : Attempt) (flow : Flow) {plan : Plan} {C : Bytes}
    (h : Ready C n₁ n₂ plan r₁ r₂) (hn₁ : 0 < n₁) (hn₂ : 0 < n₂)
    (hs : a.aperture.base.toNat + r₁.board.chip.size ≤ UInt32.size) (hw : plan.WellFormed)
    (hapart : plan.placements.Pairwise Placement.Apart) :
    EndLevel (a.install flow plan) r₁ (a.install flow plan) r₂ fun _ _ _ => True := by
  unfold install
  -- The transfers read and write in different places. Only their ends are compared.
  refine (a.erase_level h hw).during.bind fun _ t₁ t₂ ht herased => ?_
  obtain ⟨hready, he⟩ := herased
  have hs₁ : ∀ p ∈ plan.placements, p.Addressed :=
    fun p hp => (he.clear p hp).addressed (he.size ▸ hs)
  refine (a.transfer_level hready hn₁ hn₂ he.held hs₁ hw he.clear hapart).during.bind
    fun s u₁ u₂ hu hbrought => ?_
  obtain ⟨hsummary, hbuffer₁, hbuffer₂, hsize⟩ := hbrought
  have hnoted := (Plan.brought_eq_ok hsummary hw.roles).1
  have hclear : ∀ p ∈ plan.placements, a.aperture.base.toNat ≤ p.destination.toNat ∧
      p.destination.toNat + p.payloadLen.toNat ≤
        a.aperture.base.toNat + u₁.board.chip.size := by
    intro p hp
    have hbase := (he.clear p hp).base_le
    have hwithin := (he.clear p hp).within
    omega
  refine (verify_level hu he.held hs₁ hbuffer₁ hbuffer₂ hclear
    fun p hp => (hnoted p hp).1.matches).during.bind fun _ v₁ v₂ hv _ => ?_
  exact ((EndLevel.onBoard (.finish a flow plan s) hv).mono fun _ _ _ _ _ => trivial).during

end Attempt
end

namespace Sample

/-- The connection serves portions of five bytes, and the buffer just holds the header block. -/
def otherRig (data : Bytes) : Rig Scripted :=
  { rig data with link := { data, script := [.serve 5] }, buffer := List.replicate 56 0 }

end Sample

namespace Attempt

theorem abandon_level (a : Attempt) (plan : Plan) (f : Failure) {r₁ : Rig σ₁} {r₂ : Rig σ₂}
    (h : r₁.Level r₂) : (a.abandon plan f r₁).1 = (a.abandon plan f r₂).1 ∧
      (a.abandon plan f r₁).2.Level (a.abandon plan f r₂).2 := by
  have hundone := Board.Congruent.rollBack a.aperture plan _ _ h.same h.faultless
  obtain ⟨_, b₁, b₂, hx₁, hx₂, hs, hf⟩ | ⟨e, b₁, b₂, hx₁, hx₂, hs, hf⟩ := hundone.cases
  · simp only [abandon, hx₁, hx₂]
    exact ⟨trivial, hs, hf⟩
  · simp only [abandon, hx₁, hx₂]
    exact ⟨trivial, hs, hf⟩

variable [Link σ₁] [Link σ₂]

/-- The outcome of an attempt does not depend on how its stream is cut up. Two attempts over the
same bytes, on devices that hold the same, make one report and leave the same bytes and words,
whether they succeed or not, unless images of the plan share flash. The server of a bare image has
to take the handshake alike. -/
theorem run_chunking_independent (a : Attempt) {r₁ : Rig σ₁} {r₂ : Rig σ₂} {D : Bytes}
    (hD₁ : Link.Serves r₁.link D) (hD₂ : Link.Serves r₂.link D)
    (hsend : a.config.flow = .bare → Link.sending [a.running.other.toWord.toUInt8] r₁.link =
      Link.sending [a.running.other.toWord.toUInt8] r₂.link)
    (hb : r₁.board.Same r₂.board) (hf : r₁.board.Faultless)
    (hs : a.aperture.base.toNat + r₁.board.chip.size ≤ UInt32.size)
    (hn₁ : a.RoomFor r₁.buffer.length D) (hn₂ : a.RoomFor r₂.buffer.length D)
    (hapart : ∀ plan header r, a.plan a.config.flow r₁ = .ok (plan, header) r →
      plan.placements.Pairwise Placement.Apart) :
    (a.run r₁).1 = (a.run r₂).1 ∧
      (a.run r₁).2.board.chip.byte = (a.run r₂).2.board.chip.byte ∧
      ∀ slot, (a.run r₁).2.board.store.value? slot = (a.run r₂).2.board.store.value? slot := by
  have hend : (a.run r₁).1 = (a.run r₂).1 ∧ (a.run r₁).2.Level (a.run r₂).2 := by
    have hplan := a.plan_level ⟨⟨hb, hf⟩, hD₁, hD₂, rfl, rfl⟩ hsend hn₁ hn₂
    obtain ⟨⟨plan, header⟩, t₁, t₂, hx₁, hx₂, hl, hready⟩ | ⟨f, t₁, t₂, hx₁, hx₂, hl, _⟩ :=
      hplan.cases
    · have hw : plan.WellFormed := (a.plan_plans a.config.flow r₁).ok hx₁
      obtain ⟨_, _, hd, _⟩ := (a.plan_settled a.config.flow hf.store.plain).ok hx₁
      have hpos₁ : 0 < r₁.buffer.length := Nat.lt_of_lt_of_le (by decide) hn₁.1
      have hpos₂ : 0 < r₂.buffer.length := Nat.lt_of_lt_of_le (by decide) hn₂.1
      have hinstall := a.install_level a.config.flow (hready _ rfl) hpos₁ hpos₂ (hd.size ▸ hs) hw
        (hapart _ _ _ hx₁)
      obtain ⟨_, u₁, u₂, hy₁, hy₂, hu, _⟩ | ⟨f, u₁, u₂, hy₁, hy₂, hu, _⟩ := hinstall.cases
      · simp only [run, runFlow, hx₁, hx₂, hy₁, hy₂]
        exact ⟨trivial, hu⟩
      · simp only [run, runFlow, hx₁, hx₂, hy₁, hy₂]
        exact a.abandon_level plan f hu
    · simp only [run, runFlow, hx₁, hx₂]
      exact ⟨trivial, hl⟩
  exact ⟨hend.1, hend.2.same.chip.byte.symm, fun slot => (hend.2.same.store.value? slot).symm⟩

/-- The sample once more, in other portions and through the smallest buffer. -/
theorem run_chunking_independent_sample :
    (Sample.attempt.run (Sample.otherRig Sample.container)).1 = ⟨.commitSuccess, .reboot .bank1⟩ ∧
    (Sample.attempt.run (Sample.rig Sample.container)).2.board.chip.byte =
      (Sample.attempt.run (Sample.otherRig Sample.container)).2.board.chip.byte := by
  have hD₁ : Link.Serves (Sample.rig Sample.container).link Sample.container :=
    Scripted.serves (by simp [Sample.rig]) rfl
  have hD₂ : Link.Serves (Sample.otherRig Sample.container).link Sample.container :=
    Scripted.serves (by simp [Sample.otherRig]) rfl
  have hf : (Sample.rig Sample.container).board.Faultless :=
    ⟨fun _ _ => rfl, rfl, fun _ => rfl, fun _ => rfl⟩
  have hdeclared : Prologue.declared Sample.container = .ok 56 := rfl
  have hr : (Sample.attempt.run (Sample.rig Sample.container)).1 =
      ⟨.commitSuccess, .reboot .bank1⟩ := by decide +kernel
  obtain ⟨hreport, hbyte, _⟩ := Sample.attempt.run_chunking_independent hD₁ hD₂
    (fun h => absurd h (by decide)) (.refl _) hf (by decide)
    ⟨by decide, fun _ d hd => by cases hdeclared.symm.trans hd; decide⟩
    ⟨by decide, fun _ d hd => by cases hdeclared.symm.trans hd; decide⟩ fun plan header r hx => by
      obtain ⟨t, hparse, hplan, _⟩ :=
        Sample.attempt.plan_container_yields hD₁ hf.store.plain _ _ hx
      obtain rfl : Sample.header = t := Except.ok.inj (Sample.parse_container.symm.trans hparse)
      obtain ⟨_, _, _, primary, hprimary, _, hplacements⟩ := Plan.ofTarget_eq_ok hplan
      exact Plan.apart_of_disjoint hprimary hplacements Sample.disjoint
  exact ⟨hreport.symm.trans hr, hbyte⟩

end Attempt
end DualBank
