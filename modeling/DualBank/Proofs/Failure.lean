import DualBank.Proofs.Frame
import DualBank.Proofs.Planning

/-! What a failed attempt leaves behind. A failure of planning leaves flash as it was. After any
later one the first sector of the target is erased, if it can be, and the rest of what changed is in
sectors of the plan. The active bank is what it was. -/
namespace DualBank

variable {σ α β : Type}

/-- The stages before there is a plan. -/
def Stage.Early (s : Stage) : Prop := s = .parseHeader ∨ s = .resolveBank

/-- The action answers something that `Q` holds of, or fails early. -/
def Plans (Q : α → Prop) (x : Attempt.Staged σ α) : Prop :=
  ∀ r, Ends x r fun o _ => match o with
    | .ok v => Q v
    | .error f => f.stage.Early

namespace Plans

variable {x : Attempt.Staged σ α} {f : α → Attempt.Staged σ β} {P : α → Prop} {Q : β → Prop}

theorem pure {v : α} (h : P v) : Plans P (Pure.pure v : Attempt.Staged σ α) := fun _ => Ends.pure h

theorem bind (hx : Plans P x) (hf : ∀ v, P v → Plans Q (f v)) : Plans Q (x >>= f) := fun r =>
  (hx r).bind (fun v t hv => hf v hv t) fun _ _ he => he

theorem mono {P' : α → Prop} (hx : Plans P x) (hp : ∀ v, P v → P' v) : Plans P' x := fun r =>
  (hx r).mono fun o _ h => by
    cases o with
    | ok v => exact hp v h
    | error f => exact h

theorem guard {c : Prop} [Decidable c] {e : Failure} {k : α → Attempt.Staged σ β}
    {y : Attempt.Staged σ β} (he : e.stage.Early) (hy : Plans Q y) :
    Plans Q (if c then MonadExcept.throw e >>= k else y) :=
  fun r => Ends.guard (fun _ => he) fun _ => hy r

theorem during {stage : Stage} (hs : stage.Early) (x : Rig.Action σ α) :
    Plans (fun _ => True) (Attempt.during stage x) := fun _ =>
  Ends.during (Ends.of_cases (fun _ _ _ => trivial) fun _ _ _ => hs)

theorem ofExcept {stage : Stage} (hs : stage.Early) {y : Except UpdateError α}
    (h : ∀ v, y = .ok v → P v) :
    Plans P (Attempt.during stage (MonadExcept.ofExcept y) : Attempt.Staged σ α) := fun _ =>
  Ends.during (Ends.ofExcept (by
    cases y with
    | ok v => exact h v rfl
    | error e => exact hs))

end Plans

namespace Attempt

variable [Link σ]

/-- A plan that was checked, for this bank. -/
def PlanFor (bank : Bank) (plan : Plan) : Prop := plan.WellFormed ∧ plan.targetBank = bank

theorem planContainer_plans (a : Attempt) :
    Plans (fun v => PlanFor a.running.other v.1) (a.planContainer : Staged σ _) := by
  have hparse : Stage.Early .parseHeader := .inl rfl
  have hresolve : Stage.Early .resolveBank := .inr rfl
  have hblock : Plans (fun v => PlanFor a.running.other v.1) (a.planBlock : Staged σ _) := by
    refine (Plans.during hparse _).bind fun block _ => ?_
    refine (Plans.during hparse _).bind fun header _ => ?_
    refine (Plans.during hresolve _).bind fun address _ => ?_
    refine (Plans.ofExcept hresolve fun plan h => ?_).bind fun plan h => Plans.pure h
    obtain ⟨hwf, htarget, _⟩ := Plan.ofTarget_eq_ok h
    exact ⟨hwf, htarget⟩
  rw [planContainer_eq]
  split
  · exact (Plans.during hparse _).bind fun _ _ => hblock
  · exact hblock

theorem planBare_plans (a : Attempt) :
    Plans (PlanFor a.running.other) (a.planBare : Staged σ _) := by
  have hparse : Stage.Early .parseHeader := .inl rfl
  have hresolve : Stage.Early .resolveBank := .inr rfl
  unfold planBare
  refine (Plans.during hresolve _).bind fun _ _ => ?_
  refine (Plans.during hparse _).bind fun _ _ => ?_
  refine (Plans.during hparse _).bind fun info _ => Plans.guard hparse ?_
  have hlast : ∀ address, Plans (PlanFor a.running.other) (Attempt.during .resolveBank
      (MonadExcept.ofExcept (Plan.ofBare a.running.other address info.size info.checksum)) :
        Staged σ _) :=
    fun address => Plans.ofExcept hresolve fun plan h =>
      ⟨(Plan.ofBare_eq_ok h).1, Plan.targetBank_ofBare h⟩
  split
  · exact (Plans.during hresolve _).bind fun _ _ => hlast _
  · exact hlast _

theorem plan_for (a : Attempt) (flow : Flow) :
    Plans (fun v => PlanFor a.running.other v.1) (a.plan flow : Staged σ _) := by
  cases flow with
  | container => exact a.planContainer_plans.bind fun v h => Plans.pure h
  | bare => exact a.planBare_plans.bind fun v h => Plans.pure h

theorem plan_plans (a : Attempt) (flow : Flow) :
    Plans (fun v => v.1.WellFormed) (a.plan flow : Staged σ _) :=
  (a.plan_for flow).mono fun _ h => h.1

theorem Installs.late {a : Attempt} {flow : Flow} {plan : Plan} {r : Rig σ} {ms : List Event}
    {f : Failure} (h : a.Installs flow plan r ms (.error f)) : ¬f.stage.Early := by
  cases h <;> simp [Stage.Early]

end Attempt

namespace Board

/-- A rollback that was done leaves the first sector of the target erased. -/
theorem rollBack_ends (a : Aperture) (plan : Plan) (b : Board) :
    Ends (rollBack a plan) b fun o b' => o.isOk = true → ∃ address offset,
      plan.bankAddress? = some address ∧ a.offset address = .ok offset ∧
      offset + sectorSize ≤ b.chip.size ∧
      ∀ i, offset ≤ i → i < offset + sectorSize → b'.chip.byte i = erasedByte := by
  unfold rollBack
  split
  · rename_i address hb
    refine (a.erase_ends address (.ofNat sectorSize) b).mono fun o b' h hk => ?_
    cases o with
    | error e => cases hk
    | ok _ =>
      obtain ⟨_, _, start, stop, hr, hstop, hsame⟩ := h
      obtain ⟨hbase, rfl, _⟩ := Aperture.sectors_eq_ok.1 hr
      have hlen : sectorsOf (UInt32.ofNat sectorSize).toNat = sectorSize := rfl
      rw [hlen] at hstop hsame
      refine ⟨address, start, hb, Aperture.offset_eq_ok.2 hbase, hstop, fun i hlo hhi => ?_⟩
      rw [hsame.byte, Chip.byte_wiped _ _ _ (by omega), if_pos ⟨hlo, hhi⟩]
  · exact Ends.throw fun hk => by cases hk

end Board

namespace Attempt

variable [Link σ]

/-- An installation that failed was undone as far as it can be. -/
theorem abandon_failed (a : Attempt) {flow : Flow} {plan : Plan} {f : Failure} {r₁ r₂ : Rig σ}
    (hp : r₁.board.store.Plain) (hw : plan.WellFormed)
    (hy : a.install flow plan r₁ = .error f r₂) :
    ¬f.stage.Early ∧ ∃ rolledBack r',
      a.abandon plan f r₂ = (⟨.rollbackFailure, .failed f rolledBack⟩, r') ∧
      (∀ slot, r'.board.store.value? slot = r₁.board.store.value? slot) ∧
      (rolledBack = true → ∃ address offset,
        plan.bankAddress? = some address ∧ a.aperture.offset address = .ok offset ∧
        offset + sectorSize ≤ r₁.board.chip.size ∧
        ∀ i, offset ≤ i → i < offset + sectorSize → r'.board.chip.byte i = erasedByte) ∧
      (rolledBack = false ↔ ∃ e b, Board.rollBack a.aperture plan r₂.board = .error e b) ∧
      ∀ i < r₁.board.chip.size, (∀ p ∈ plan.placements, ¬a.aperture.Covers p i) →
        r'.board.chip.byte i = r₁.board.chip.byte i := by
  obtain ⟨ms, hm, hi⟩ := (a.install_installs flow plan hp).error hy
  have hends := Board.rollBack_ends a.aperture plan r₂.board
  have hundoes := Board.rollBack_undoes a.aperture plan r₂.board
  obtain ⟨o, b, ⟨habandon, herased, us, hu, hun⟩, hself⟩ :=
    ((a.abandon_ends plan f r₂).and (hends.and hundoes)).outcome_eq
  have hmus := hm.trans hu
  -- No call after planning sets a word, and each is covered by the plan.
  have hunset : ∀ e ∈ ms ++ us, e.Unset := by
    intro e he
    rcases List.mem_append.1 he with he | he
    · exact hi.unset e he
    · exact hun.unset e he
  have hcovered : ∀ e ∈ ms ++ us, e.Covered a.aperture plan.placements := by
    intro e he
    rcases List.mem_append.1 he with he | he
    · exact hi.covered hw e he
    · exact hun.covered e he
  refine ⟨hi.late, o.isOk, _, habandon, fun slot => ?_, fun hk => ?_, ?_, fun i hlt hout => ?_⟩
  · exact hmus.value? hp fun e he => hunset e he slot
  · obtain ⟨address, offset, hb, ho, hle, hbyte⟩ := herased hk
    exact ⟨address, offset, hb, ho, hm.size ▸ hle, hbyte⟩
  · cases o with
    | ok v => simp [hself, Ends.result, Except.isOk, Except.toBool]
    | error e => simp [hself, Ends.result, Except.isOk, Except.toBool]
  · refine hmus.byte hlt fun e he ht => ?_
    obtain ⟨p, hmem, hc⟩ := hcovered e he i ht
    exact hout p hmem hc

/-- A failed attempt. Early on it changes nothing but the address of bank 2, which a container only
sets where there is none. Later on it ends with a rollback, whose own failure is reported. -/
theorem run_failed (a : Attempt) {r r' : Rig σ} {stage : Stage} {f : Failure} {rolledBack : Bool}
    (hp : r.board.store.Plain) (hr : a.run r = (⟨stage, .failed f rolledBack⟩, r')) :
    r'.board.store.value? .activeBank = r.board.store.value? .activeBank ∧
    (f.stage.Early → stage = f.stage ∧ rolledBack = false ∧
      (∀ i < r.board.chip.size, r'.board.chip.byte i = r.board.chip.byte i) ∧
      (r'.board.store.value? .bank2Address = r.board.store.value? .bank2Address ∨
        r'.board.store.value? .bank2Address = some a.config.defaultBank2Address ∧
          (a.config.flow = .container →
            r.board.store.value? .bank2Address = some erasedWord))) ∧
    (¬f.stage.Early → stage = .rollbackFailure ∧ ∃ plan header r₁ r₂,
      a.plan a.config.flow r = .ok (plan, header) r₁ ∧
      a.install a.config.flow plan r₁ = .error f r₂ ∧
      (rolledBack = true → ∃ address offset,
        plan.bankAddress? = some address ∧ a.aperture.offset address = .ok offset ∧
        offset + sectorSize ≤ r.board.chip.size ∧
        ∀ i, offset ≤ i → i < offset + sectorSize → r'.board.chip.byte i = erasedByte) ∧
      (rolledBack = false ↔ ∃ e b, Board.rollBack a.aperture plan r₂.board = .error e b) ∧
      ∀ i < r.board.chip.size, (∀ p ∈ plan.placements, ¬a.aperture.Covers p i) →
        r'.board.chip.byte i = r.board.chip.byte i) := by
  have hsettled := a.plan_settled a.config.flow hp
  have hplans := a.plan_plans a.config.flow r
  obtain ⟨f', r₁, hx, hrun⟩ | ⟨plan, header, r₁, hx, hrun⟩ := a.run_cases r
  · -- There was no plan, and what planning does is known.
    rw [hrun] at hr
    cases hr
    have hearly : f.stage.Early := hplans.error hx
    obtain ⟨hbytes, hactive, hbank2⟩ := (hsettled.error hx).kept hp
    exact ⟨hactive, fun _ => ⟨rfl, rfl, hbytes, hbank2⟩, fun hl => absurd hearly hl⟩
  · have hwf : plan.WellFormed := hplans.ok hx
    have hs := hsettled.ok hx
    have hp₁ := hs.plain hp
    obtain ⟨hbytes, hactive, _⟩ := hs.kept hp
    obtain ⟨ss, _, hd, _⟩ := hs
    obtain ⟨r₂, hy, hrun⟩ | ⟨f', r₂, hy, hrun⟩ := hrun
    · rw [hrun] at hr
      cases hr
    · obtain ⟨hlate, _, _, habandon, hwords, herased, hfailed, hkept⟩ :=
        a.abandon_failed hp₁ hwf hy
      rw [hrun, habandon] at hr
      cases hr
      rw [hd.size] at herased hkept
      refine ⟨(hwords _).trans hactive, fun he => absurd he hlate, fun _ =>
        ⟨rfl, plan, header, r₁, r₂, hx, hy, herased, hfailed, fun i hi hout => ?_⟩⟩
      exact (hkept i hi hout).trans (hbytes i hi)

/-- The image is cut off after its fifth byte. -/
theorem run_failed_sample :
    (Sample.rig (Sample.container.take 61)).board.store.Plain ∧
    (Sample.attempt.run (Sample.rig (Sample.container.take 61))).1 =
      ⟨.rollbackFailure, .failed ⟨.streamWrite, .streamTruncated⟩ true⟩ ∧
    ∃ (plan : Plan) (address : Word) (offset : Nat), plan.bankAddress? = some address ∧
      Sample.attempt.aperture.offset address = .ok offset ∧ ∀ i, offset ≤ i →
        i < offset + sectorSize →
        (Sample.attempt.run (Sample.rig (Sample.container.take 61))).2.board.chip.byte i =
          erasedByte := by
  have hp : (Sample.rig (Sample.container.take 61)).board.store.Plain := rfl
  have hr : (Sample.attempt.run (Sample.rig (Sample.container.take 61))).1 =
      ⟨.rollbackFailure, .failed ⟨.streamWrite, .streamTruncated⟩ true⟩ := by decide +kernel
  have hlate : ¬Stage.Early .streamWrite := by simp [Stage.Early]
  obtain ⟨_, plan, _, _, _, _, _, herased, _⟩ :=
    (Sample.attempt.run_failed hp (Prod.ext hr rfl)).2.2 hlate
  obtain ⟨address, offset, hb, ho, _, hbyte⟩ := herased rfl
  exact ⟨hp, hr, plan, address, offset, hb, ho, hbyte⟩

end Attempt
end DualBank
