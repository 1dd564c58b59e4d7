import DualBank.Command
import DualBank.Launch
import DualBank.Proofs.Durable

/-! The bank that the boot loader is pointed at, over any history of commands and updates. It is the
one that a command named last, or that of an update that went through. An update that fails leaves
the selection alone, and wipes the bank that does not run; so what it wipes is selected exactly if
it was selected before. -/
namespace DualBank

variable {σ : Type}

/-- The bank that an update selects. -/
def Ending.selected? : Ending → Option Bank
  | .reset bank => some bank
  | .returned _ => none

theorem Ending.ofReport_eq_returned {r r' : Report} (h : ofReport r = .returned r') : r = r' := by
  unfold ofReport at h
  split at h
  · cases h
  · exact Ending.returned.inj h

/-- The first sector of the bank of the plan is erased. -/
def Board.Wiped (a : Aperture) (plan : Plan) (b : Board) : Prop :=
  ∃ address offset, plan.bankAddress? = some address ∧ a.offset address = .ok offset ∧
    offset + sectorSize ≤ b.chip.size ∧
    ∀ i, offset ≤ i → i < offset + sectorSize → b.chip.byte i = erasedByte

/-! ## One attempt -/

namespace Attempt

variable [Link σ]

/-- The images of the plan, if the attempt comes to have one, are clear of the record. -/
def Spares (a : Attempt) (r : Rig σ) : Prop :=
  ∀ plan header r₁, a.plan a.config.flow r = .ok (plan, header) r₁ →
    r.board.store.Apart a.aperture plan.placements

/-- After an attempt that selects a bank the active bank is this one, and after any other it is what
it was. -/
theorem run_retains (a : Attempt) {r : Rig σ} (hd : r.board.Durable) (hs : a.Spares r) :
    r.board.Retains
      (((Ending.ofReport (a.run r).1).selected?.map Bank.toWord).or (r.board.word? .activeBank))
      (a.run r).2.board := by
  have hplanning := planning_secures (σ := σ) a.config a.aperture
  obtain ⟨f, r₁, hx, hr⟩ | ⟨plan, header, r₁, hx, hr⟩ := a.run_cases r
  · rw [hr]
    exact ((hplanning []).plan _ r).error hx hd (Store.apart_nil _ _)
  · have hplan : r.board.Secures a.aperture plan.placements r₁.board :=
      ((hplanning plan.placements).plan _ r).ok hx
    have hapart := hs plan header r₁ hx
    have hinstall := a.install_concludes a.config.flow ((a.plan_plans _ r).ok hx) r₁
    obtain ⟨r₂, hy, hr⟩ | ⟨f, r₂, hy, hr⟩ := hr
    · have hselects : r₁.board.Selects a.aperture plan.placements plan.targetBank r₂.board :=
        hinstall.ok hy
      rw [hr]
      exact hplan.selects hselects hd hapart
    · have hsecures : r₁.board.Secures a.aperture plan.placements r₂.board := hinstall.error hy
      obtain ⟨o, b, habandon, hundone⟩ := ((a.abandon_ends plan f r₂).and
        ((Board.images_secured a.aperture plan.placements).rollBack r₂.board)).outcome
      rw [hr, habandon]
      exact (hplan.trans (hsecures.trans hundone)) hd hapart

/-- An installation that fails, but not at the erasure, has erased its targets. -/
theorem install_erased (a : Attempt) (flow : Flow) (plan : Plan) (r : Rig σ) :
    Ends (a.install flow plan) r fun o _ => ∀ f, o = .error f → f.stage ≠ .eraseTarget →
      ∃ b, Board.eraseTargets a.aperture plan.placements r.board = .ok () b := by
  have herase : Ends (during .eraseTarget
      (Rig.onBoard (Board.eraseTargets a.aperture plan.placements))) r fun o _ =>
      (∀ v, o = .ok v → ∃ b, Board.eraseTargets a.aperture plan.placements r.board = .ok () b) ∧
      ∀ f, o = .error f → f.stage = .eraseTarget := by
    refine Ends.during (Ends.onBoard (Ends.self.mono fun o b h => ?_))
    refine ⟨fun v ho => ?_, fun f ho => ?_⟩
    · cases o with
      | ok w => exact ⟨b, h w rfl⟩
      | error e => cases ho
    · cases o with
      | ok w => cases ho
      | error e => cases ho; rfl
  unfold install
  refine herase.bind (fun v _ hb => Ends.of_cases (fun _ _ _ f ho => ?_)
    fun _ _ _ _ _ _ => hb.1 v rfl) fun f _ hf f' hf' hne => ?_
  · cases ho
  · cases hf'
    exact absurd (hf.2 f rfl) hne

/-- An attempt that fails late, but not at the erasure, wipes the bank that does not run. -/
theorem run_wiped (a : Attempt) {r r' : Rig σ} {stage : Stage} {f : Failure} {rolledBack : Bool}
    (hd : r.board.Durable) (hs : a.Spares r)
    (hr : a.run r = (⟨stage, .failed f rolledBack⟩, r')) (hl : ¬f.stage.Early) :
    ∃ plan header r₁, a.plan a.config.flow r = .ok (plan, header) r₁ ∧
      plan.targetBank = a.running.other ∧ (f.stage ≠ .eraseTarget → rolledBack = true) ∧
      (rolledBack = true → r'.board.Wiped a.aperture plan) := by
  have hplanning := planning_secures (σ := σ) a.config a.aperture
  have hfor := a.plan_for a.config.flow r
  obtain ⟨f', r₁, hx, hrun⟩ | ⟨plan, header, r₁, hx, hrun⟩ := a.run_cases r
  · rw [hrun] at hr
    cases hr
    exact absurd (hfor.error hx) hl
  · obtain ⟨hwf, htarget⟩ : PlanFor a.running.other plan := hfor.ok hx
    have hapart := hs plan header r₁ hx
    have h₁ : r.board.Retains _ r₁.board := ((hplanning plan.placements).plan _ r).ok hx hd hapart
    obtain ⟨r₂, hy, hrun⟩ | ⟨f', r₂, hy, hrun⟩ := hrun
    · rw [hrun] at hr
      cases hr
    · have h₂ : r₁.board.Retains _ r₂.board :=
        (a.install_concludes a.config.flow hwf r₁).error hy h₁.durable (hapart.congr h₁.home)
      obtain ⟨o, b, ⟨habandon, hwiped, hundone⟩, hself⟩ := ((a.abandon_ends plan f' r₂).and
        ((Board.rollBack_ends a.aperture plan r₂.board).and
          ((Board.images_secured a.aperture plan.placements).rollBack r₂.board))).outcome_eq
      have hsize := (hundone h₂.durable (hapart.congr (h₂.home.trans h₁.home))).size
      rw [hrun, habandon] at hr
      cases hr
      refine ⟨plan, header, r₁, hx, htarget, fun hne => ?_, fun hok => ?_⟩
      · -- All targets could be erased, so the first sector of one of them can be erased again.
        obtain ⟨b', herased⟩ := (a.install_erased a.config.flow plan r₁).error hy f rfl hne
        have hcan := ((Board.eraseTargets_verdict h₁.durable.chip).ok herased).1 rfl
        rw [← h₂.size] at hcan
        obtain ⟨o', b'', rfl, hself'⟩ :=
          (Board.rollBack_verdict h₂.durable.chip hwf hcan).outcome_eq
        rw [hself] at hself'
        cases o with
        | ok v => rfl
        | error e => cases hself'
      · obtain ⟨address, offset, haddress, hoffset, hle, hbytes⟩ := hwiped hok
        exact ⟨address, offset, haddress, hoffset, hsize.symm ▸ hle, hbytes⟩

end Attempt

/-! ## Histories -/

/-- What is done with a device: a command selects a bank, or an update is run. -/
inductive Deed : Type 1 where
  | select (bank : Bank)
  | update {σ : Type} [Link σ] (aperture : Aperture) (config : Config) (link : σ) (buffer : Bytes)

namespace Desk

/-- Lets an update in, if none is, and runs it to its end. -/
def update [Link σ] (d : Desk) (a : Attempt) (link : σ) (buffer : Bytes) : Option Ending × Desk :=
  match d.gate.enter? with
  | none => (none, d)
  | some gate =>
    let (ending, gate, r) := a.execute gate { link, board := d.board, buffer }
    (some ending, { gate, board := r.board })

/-- The bank that is to be selected by the deed, if there is one, and the desk after it. A command
names its bank, whatever the reply is, and an update selects one if it goes through. -/
def perform (running : Bank) (d : Desk) : Deed → Option Bank × Desk
  | .select bank => (some bank, (d.dispatch (.selectBank bank)).2.2)
  | @Deed.update _ _ aperture config link buffer =>
    let (ending, d) := d.update { aperture, config, running } link buffer
    (ending.bind Ending.selected?, d)

/-- The bank that is to be selected after the deeds, and the desk. -/
def after (running : Bank) : Bank → Desk → List Deed → Bank × Desk
  | selected, d, [] => (selected, d)
  | selected, d, deed :: deeds =>
    let (next?, d) := d.perform running deed
    d.after running (next?.getD selected) deeds

end Desk

/-- An update stays clear of the record. -/
def Deed.Spares (running : Bank) (d : Desk) : Deed → Prop
  | .select _ => True
  | @Deed.update _ _ aperture config link buffer =>
    Attempt.Spares { aperture, config, running } { link, board := d.board, buffer }

namespace Desk

/-- So does each that is run. -/
def Spares (running : Bank) : Desk → List Deed → Prop
  | _, [] => True
  | d, deed :: deeds => deed.Spares running d ∧ Spares running (d.perform running deed).2 deeds

/-- No update runs, the words are safe, and the active bank is this one. -/
structure Points (d : Desk) (bank : Bank) : Prop where
  idle : d.gate.busy = false
  durable : d.board.Durable
  active : d.board.word? .activeBank = some bank.toWord

variable {running selected : Bank} {d : Desk}

theorem Points.enter? (h : d.Points selected) : d.gate.enter? = some { busy := true } := by
  rw [Gate.enter?, h.idle]
  rfl

theorem Points.update_eq [Link σ] (h : d.Points selected) (a : Attempt) (link : σ)
    (buffer : Bytes) : d.update a link buffer =
      (some (.ofReport (a.run { link, board := d.board, buffer }).1),
        { gate := {}, board := (a.run { link, board := d.board, buffer }).2.board }) := by
  simp only [update, h.enter?]
  rfl

/-- A command is answered, and selects its bank. -/
theorem Points.dispatch_select (h : d.Points selected) (bank : Bank) : ∃ board,
    d.dispatch (.selectBank bank) = (.bankSelected bank, none, { gate := {}, board }) ∧
      d.board.Retains (some bank.toWord) board := by
  have hwrite : Ends (Board.selectBank bank) d.board _ := h.durable.writeSlot_ok .activeBank _
  cases hx : Board.selectBank bank d.board with
  | error e board => exact absurd (hwrite.error hx).1 (by simp)
  | ok v board =>
    refine ⟨board, ?_, (hwrite.ok hx).2⟩
    simp only [dispatch, selectBank, h.enter?, hx]
    rfl

/-- After each deed the active bank is the one that was to be selected last. -/
theorem Points.perform (h : d.Points selected) {deed : Deed} (hs : deed.Spares running d) :
    (d.perform running deed).2.Points ((d.perform running deed).1.getD selected) ∧
      (d.perform running deed).2.board.store.home? = d.board.store.home? := by
  cases deed with
  | select bank =>
    obtain ⟨board, hdone, hboard⟩ := h.dispatch_select bank
    simp only [Desk.perform, hdone]
    exact ⟨⟨rfl, hboard.durable, hboard.active⟩, hboard.home⟩
  | update aperture config link buffer =>
    have hboard := Attempt.run_retains _ h.durable hs
    simp only [Desk.perform, h.update_eq, Option.bind_some]
    refine ⟨⟨rfl, hboard.durable, ?_⟩, hboard.home⟩
    rw [hboard.active, h.active]
    cases Ending.selected? _ <;> rfl

/-- So it is after all of them. -/
theorem Points.after (h : d.Points selected) {deeds : List Deed} (hs : d.Spares running deeds) :
    (d.after running selected deeds).2.Points (d.after running selected deeds).1 := by
  induction deeds generalizing d selected with
  | nil => exact h
  | cons deed deeds ih => exact ih (h.perform hs.1).1 hs.2

/-- Words in memory are out of the way of every update. -/
theorem Points.spares_memory (h : d.Points selected) (hmemory : d.board.store.home? = none)
    (deeds : List Deed) : d.Spares running deeds := by
  induction deeds generalizing d selected with
  | nil => trivial
  | cons deed deeds ih =>
    have hdeed : deed.Spares running d := by
      cases deed with
      | select bank => trivial
      | update aperture config link buffer =>
        exact fun _ _ _ _ => Store.apart_memory hmemory _ _
    obtain ⟨hnext, hhome⟩ := h.perform hdeed
    exact ⟨hdeed, ih hnext (hhome.trans hmemory)⟩

/-- What the boot loader is pointed at after an update that failed. It is the bank that was selected
last, before the update and after it, or the one that runs if none ever was. The bank that does not
run, whose first sector was wiped, is the active bank exactly if it was selected last. -/
theorem selection_after_failure [Link σ] (h : d.Points running) {deeds : List Deed}
    (hs : d.Spares running deeds) {selected : Bank} {d₁ : Desk}
    (hafter : d.after running running deeds = (selected, d₁)) {aperture : Aperture}
    {config : Config} {link : σ} {buffer : Bytes}
    (hs₁ : Attempt.Spares { aperture, config, running } { link, board := d₁.board, buffer })
    {stage : Stage} {f : Failure} {rolledBack : Bool} {d₂ : Desk}
    (hfailed : d₁.update { aperture, config, running } link buffer =
      (some (.returned ⟨stage, .failed f rolledBack⟩), d₂)) (hl : ¬f.stage.Early) :
    d₁.board.word? .activeBank = some selected.toWord ∧
    d₂.board.word? .activeBank = some selected.toWord ∧
    (d₂.board.word? .activeBank = some running.other.toWord ↔ selected = running.other) ∧
    ∃ plan header r₁, Attempt.plan { aperture, config, running } config.flow
        { link, board := d₁.board, buffer } = .ok (plan, header) r₁ ∧
      plan.targetBank = running.other ∧ (f.stage ≠ .eraseTarget → rolledBack = true) ∧
      (rolledBack = true → d₂.board.Wiped aperture plan) := by
  have h₁ : d₁.Points selected := by
    have h := h.after hs
    rwa [hafter] at h
  rw [h₁.update_eq] at hfailed
  obtain ⟨hending, rfl⟩ := Prod.mk.inj hfailed
  have hreport : (Attempt.run { aperture, config, running }
      { link, board := d₁.board, buffer }).1 = ⟨stage, .failed f rolledBack⟩ :=
    Ending.ofReport_eq_returned (Option.some.inj hending)
  have hretains := Attempt.run_retains _ h₁.durable hs₁
  rw [hreport] at hretains
  have hactive := hretains.active.trans h₁.active
  refine ⟨h₁.active, hactive, ?_, Attempt.run_wiped _ h₁.durable hs₁ (Prod.ext hreport rfl) hl⟩
  rw [hactive, Option.some_inj]
  cases selected <;> cases running <;> decide

end Desk

namespace Sample

/-- Bank 2 runs, and the boot loader is pointed at it. -/
def desk : Desk where
  gate := {}
  board := { chip := { size := 0x3000 }, store := .memory { activeBank := 1 } }

theorem desk_points : desk.Points .bank2 :=
  ⟨rfl, .inl ⟨fun _ _ => rfl, rfl, fun _ => rfl, fun _ => rfl⟩, by decide +kernel⟩

/-- An update from these bytes. -/
def deed (data : Bytes) : Deed :=
  .update attempt.aperture attempt.config (rig data).link (rig data).buffer

/-- The other bank is selected by an update, and the running one by a command after that. -/
def deeds : List Deed := [deed container, .select .bank2]

/-- An update after the deeds. -/
def afterwards (a : Attempt) (d : Desk) (deeds : List Deed) (data : Bytes) : Option Ending × Desk :=
  (d.after a.running a.running deeds).2.update a (rig data).link (rig data).buffer

/-- The image is cut off after its fifth byte. -/
def cutOff (deeds : List Deed) : Option Ending × Desk :=
  afterwards attempt desk deeds (container.take 61)

end Sample

theorem Desk.selection_after_failure_sample :
    Sample.desk.Points .bank2 ∧ Sample.desk.Spares .bank2 Sample.deeds ∧
    (Sample.desk.after .bank2 .bank2 Sample.deeds).1 = .bank2 ∧
    (Sample.cutOff Sample.deeds).1 =
      some (.returned ⟨.rollbackFailure, .failed ⟨.streamWrite, .streamTruncated⟩ true⟩) ∧
    (Sample.cutOff Sample.deeds).2.board.word? .activeBank = some Bank.bank2.toWord ∧
    ∃ plan, (Sample.cutOff Sample.deeds).2.board.Wiped Sample.attempt.aperture plan := by
  have hspares : Sample.desk.Spares .bank2 Sample.deeds :=
    Sample.desk_points.spares_memory rfl _
  have hselected : (Sample.desk.after .bank2 .bank2 Sample.deeds).1 = .bank2 := by decide +kernel
  have hfailed : (Sample.cutOff Sample.deeds).1 =
      some (.returned ⟨.rollbackFailure, .failed ⟨.streamWrite, .streamTruncated⟩ true⟩) := by
    decide +kernel
  have hmemory : (Sample.desk.after .bank2 .bank2
      Sample.deeds).2.board.store.home?.isNone = true := by decide +kernel
  have hlate : ¬Stage.Early .streamWrite := by simp [Stage.Early]
  obtain ⟨_, hactive, _, plan, _, _, _, _, _, hwiped⟩ := Desk.selection_after_failure
    Sample.desk_points hspares (Prod.ext hselected rfl)
    (fun _ _ _ _ => Store.apart_memory (Option.isNone_iff_eq_none.1 hmemory) _ _)
    (Prod.ext hfailed rfl) hlate
  exact ⟨Sample.desk_points, hspares, hselected, hfailed, hactive, plan, hwiped rfl⟩

namespace Sample

/-- The words are in a record where the secondary image goes. -/
def recordDesk : Desk where
  gate := {}
  board :=
    { chip := { size := 0x3000 : Chip }.preset 0x2000 (Word.toBytes 0x1000 ++ Word.toBytes 1)
      store := .record { base := 0 } 0x2000 }

/-- A container whose secondary image is all zeros, and has another checksum. -/
def zeroing : Bytes :=
  (1 : Word).toBytes ++ (2 : Word).toBytes ++ record .ota1 primary 56 0 ++
    record .rdp [1, 0, 0, 0, 0, 0, 0, 0] 66 0x2000 ++ primary ++ List.replicate 8 0

def zeroed : Option Ending × Desk := afterwards attempt recordDesk [] zeroing

/-- Bank 1 does not start on a sector. -/
def unaligned : Attempt := { attempt with config := { attempt.config with bank1Address := 0x100 } }

def unalignedDesk : Desk :=
  { desk with board := { desk.board with chip := desk.board.chip.preset 0x100 [0x55] } }

def unwiped : Option Ending × Desk :=
  afterwards unaligned unalignedDesk [] <|
    (1 : Word).toBytes ++ (1 : Word).toBytes ++ record .ota1 primary 32 0x100 ++ primary

end Sample

/-- A wiped bank is selected if it was selected before, by a command or by an update. It may also
come to be selected if the record is in the way of an image. And a bank that does not start on a
sector is not wiped at all. -/
theorem Desk.wiped_bank_selected :
    Sample.desk.Points .bank2 ∧
    (∀ deed ∈ [Deed.select .bank1, Sample.deed Sample.container],
      (Sample.cutOff [deed]).1 =
        some (.returned ⟨.rollbackFailure, .failed ⟨.streamWrite, .streamTruncated⟩ true⟩) ∧
      (Sample.cutOff [deed]).2.board.word? .activeBank = some Bank.bank1.toWord ∧
      (Sample.cutOff [deed]).2.board.chip.runs = []) ∧
    Sample.recordDesk.Points .bank2 ∧
    Sample.zeroed.1 =
      some (.returned ⟨.rollbackFailure, .failed ⟨.verify, .checksumMismatch⟩ true⟩) ∧
    Sample.zeroed.2.board.word? .activeBank = some Bank.bank1.toWord ∧
    Sample.unalignedDesk.Points .bank2 ∧
    Sample.unwiped.1 =
      some (.returned ⟨.rollbackFailure, .failed ⟨.eraseTarget, .invalidAddress⟩ false⟩) ∧
    Sample.unwiped.2.board.chip.byte 0x100 = 0x55 := by
  have hrecords : Sample.recordDesk.board.Records { base := 0 } 0x2000 0x2000 :=
    ⟨rfl, rfl, fun _ _ => rfl, rfl, rfl, by decide, by decide⟩
  have hunaligned : Sample.unalignedDesk.board.Faultless :=
    ⟨fun _ _ => rfl, rfl, fun _ => rfl, fun _ => rfl⟩
  refine ⟨Sample.desk_points, ?_, ⟨rfl, .inr ⟨_, _, _, hrecords⟩, by decide +kernel⟩,
    by decide +kernel, by decide +kernel, ⟨rfl, .inl hunaligned, by decide +kernel⟩,
    by decide +kernel, by decide +kernel⟩
  simp only [List.forall_mem_cons, List.not_mem_nil, false_imp_iff, implies_true, and_true]
  refine ⟨⟨?_, ?_, ?_⟩, ?_, ?_, ?_⟩ <;> decide +kernel

end DualBank
