import DualBank.Link.Scripted
import DualBank.Proofs.Course

/-! Every attempt keeps to its course: nothing is written before all is erased, no signature before
all is checked, and the active bank is the last word to change. -/
namespace DualBank

variable {σ : Type}

namespace Board

theorem rollBack_undoes (a : Aperture) (plan : Plan) (b : Board) :
    Ends (rollBack a plan) b fun o b' => ∃ us, Does us b b' ∧ Undoes a plan us o.isOk := by
  unfold rollBack
  split
  · rename_i address hb
    refine (a.erase_does address (.ofNat sectorSize) b).mono fun o b' h => ?_
    obtain ⟨ho, hd⟩ | ⟨lo, hi, fault, hr, hf, hd⟩ := h
    · exact ⟨[], hd, ho ▸ .refused⟩
    · obtain ⟨hl, rfl, _⟩ := Aperture.sectors_eq_ok.1 hr
      rw [show sectorsOf (UInt32.ofNat sectorSize).toNat = sectorSize from rfl] at hd
      exact ⟨_, hd, hf ▸ .erased hb (Aperture.offset_eq_ok.2 hl)⟩
  · exact Ends.throw ⟨[], .refl b, .refused⟩

end Board

namespace Attempt

theorem finish_commits (a : Attempt) (flow : Flow) (plan : Plan) (s : Summary) {b : Board}
    (hp : b.store.Plain) :
    Ends (a.finish flow plan s) b fun o b' =>
      ∃ cs, Does cs b b' ∧ Commits a.aperture plan flow cs o.isOk := by
  obtain ⟨e, hx⟩ | ⟨address, hb, ⟨rfl, hx⟩ | ⟨signature, rfl, _, hx⟩⟩ := a.finish_cases flow plan s
  · rw [hx]
    exact Ends.throw ⟨[], .refl b, .refused⟩
  · rw [hx]
    refine (Board.writeSlot_does hp _ _).mono fun o b' hd => ?_
    have hc : Commits a.aperture plan .bare
      [.slotWrite .activeBank plan.targetBank.toWord (!o.isOk)] (!!o.isOk) := .bare
    rw [Bool.not_not] at hc
    exact ⟨_, hd, hc⟩
  · rw [hx]
    refine (a.aperture.write_does address signature.bytes b).bind (fun _ t h => ?_)
      fun e t h => ?_
    · obtain ⟨ho, _⟩ | ⟨offset, fault, ho, hf, hd⟩ := h
      · cases ho
      · cases fault with
        | some e => cases hf
        | none =>
          refine (Board.writeSlot_does (hd.plain hp) _ _).mono fun o b' hw => ?_
          have hc : Commits a.aperture plan .container
            [.flash (.write offset signature.bytes) none,
              .slotWrite .activeBank plan.targetBank.toWord (!o.isOk)] (!!o.isOk) :=
            .signed hb ho
          rw [Bool.not_not] at hc
          exact ⟨_, hd.trans hw, hc⟩
    · obtain ⟨_, hd⟩ | ⟨offset, fault, ho, hf, hd⟩ := h
      · exact ⟨[], hd, .refused⟩
      · cases fault with
        | none => cases hf
        | some e => exact ⟨_, hd, .unsigned hb ho⟩

theorem abandon_ends (a : Attempt) (plan : Plan) (f : Failure) (r : Rig σ) :
    Ends (Board.rollBack a.aperture plan) r.board fun o b =>
      a.abandon plan f r = (⟨.rollbackFailure, .failed f o.isOk⟩, { r with board := b }) := by
  refine Ends.of_cases (fun _ b hx => ?_) fun e b hx => ?_ <;> rw [abandon, hx] <;> rfl

variable [Link σ]

theorem install_installs (a : Attempt) (flow : Flow) (plan : Plan) {r : Rig σ}
    (hp : r.board.store.Plain) :
    Ends (a.install flow plan) r fun o r' =>
      ∃ ms, Does ms r.board r'.board ∧ a.Installs flow plan r ms o := by
  unfold install
  refine (Ends.staged (Q := fun k t => ∃ es, Does es r.board t.board ∧
      Erasures a.aperture plan.placements es k)
    (Ends.onBoard (Board.eraseTargets_erasures _ _ _))).bind (fun _ r₁ h => ?_) fun f r₁ h => ?_
  · obtain ⟨⟨es, hes, he⟩, hr₁⟩ := h
    have hp₁ := hes.plain hp
    refine (Ends.staged (Q := fun k t => ∃ ws whole, Does ws r₁.board t.board ∧
        Payloads a.aperture plan.placements ws whole ∧ (k = true → whole = true))
      (Rig.transfer_payloads _ plan r₁)).bind (fun s r₂ h => ?_) fun f r₂ h => ?_
    · obtain ⟨⟨ws, whole, hws, hw, hk⟩, hr₂⟩ := h
      obtain rfl := hk rfl
      have hp₂ := hws.plain hp₁
      refine (Ends.staged (Q := fun _ t => Does [] r₂.board t.board)
        (Rig.Quiet.verify _ s plan.placements r₂)).bind (fun _ r₃ h => ?_) fun f r₃ h => ?_
      · obtain ⟨hv, hr₃⟩ := h
        have hd : Does (es ++ ws) r.board r₃.board := by
          have hd := (hes.trans hws).trans hv
          rwa [List.append_nil] at hd
        have hverified : a.Verified plan r (es ++ ws) :=
          ⟨r₁, s, r₂, r₃, hr₁, hr₂, hr₃, (hes.trans hws).mutations⟩
        refine (Ends.staged (Q := fun k t => ∃ cs, Does cs r₃.board t.board ∧
            Commits a.aperture plan flow cs k)
          (Ends.onBoard (finish_commits a flow plan s (hv.plain hp₂)))).mono fun o r₄ h => ?_
        obtain ⟨⟨cs, hcs, hc⟩, hr₄⟩ := h
        refine ⟨es ++ ws ++ cs, hd.trans hcs, ?_⟩
        cases o with
        | ok _ => exact .committed he hw hverified hc
        | error f =>
          obtain ⟨stage, error⟩ := f
          obtain rfl : stage = .commitSuccess := hr₄
          exact .uncommitted he hw hverified hc
      · obtain ⟨stage, error⟩ := f
        obtain ⟨hv, hs⟩ := h
        obtain rfl : stage = .verify := hs
        refine ⟨es ++ ws, ?_, .unverified he hw⟩
        have hd := (hes.trans hws).trans hv
        rwa [List.append_nil] at hd
    · obtain ⟨stage, error⟩ := f
      obtain ⟨⟨ws, whole, hws, hw, _⟩, hs⟩ := h
      obtain rfl : stage = .streamWrite := hs
      exact ⟨es ++ ws, hes.trans hws, .broken he hw⟩
  · obtain ⟨stage, error⟩ := f
    obtain ⟨⟨es, hes, he⟩, hs⟩ := h
    obtain rfl : stage = .eraseTarget := hs
    exact ⟨es, hes, .unerased he⟩

/-- An attempt ends with a plan that failed, with an installation, or with one that was undone. -/
theorem run_cases (a : Attempt) (r : Rig σ) :
    (∃ f r₁, a.plan a.config.flow r = .error f r₁ ∧ a.run r = (.ofPlanning f, r₁)) ∨
    ∃ plan header r₁, a.plan a.config.flow r = .ok (plan, header) r₁ ∧
      ((∃ r₂, a.install a.config.flow plan r₁ = .ok () r₂ ∧
        a.run r = (⟨.commitSuccess, .reboot plan.targetBank⟩, r₂)) ∨
      ∃ f r₂, a.install a.config.flow plan r₁ = .error f r₂ ∧ a.run r = a.abandon plan f r₂) := by
  cases hp : a.plan a.config.flow r with
  | error f r₁ => exact .inl ⟨f, r₁, rfl, by simp only [run, runFlow, hp]⟩
  | ok v r₁ =>
    obtain ⟨plan, header⟩ := v
    refine .inr ⟨plan, header, r₁, rfl, ?_⟩
    cases hi : a.install a.config.flow plan r₁ with
    | ok _ r₂ => exact .inl ⟨r₂, rfl, by simp only [run, runFlow, hp, hi]⟩
    | error f r₂ => exact .inr ⟨f, r₂, rfl, by simp only [run, runFlow, hp, hi]⟩

/-- What planning, installing and rolling back keep is kept by the attempt. The relation may depend
on the images of the plan, and there are none without one. -/
theorem run_keeps (a : Attempt) {R : List Placement → Board → Board → Prop} (r : Rig σ)
    (htrans : ∀ ps {b b' b''}, R ps b b' → R ps b' b'' → R ps b b'')
    (hplan : ∀ ps, Rig.Keeping (R ps) (a.plan a.config.flow : Staged σ _))
    (hinstall : ∀ {plan header r₁}, a.plan a.config.flow r = .ok (plan, header) r₁ →
      Rig.Keeping (R plan.placements) (a.install a.config.flow plan : Staged σ _))
    (hundo : ∀ plan, Keeps (R plan.placements) (Board.rollBack a.aperture plan)) :
    (∃ f r₁, a.plan a.config.flow r = .error f r₁ ∧ R [] r.board (a.run r).2.board) ∨
    ∃ plan header r₁, a.plan a.config.flow r = .ok (plan, header) r₁ ∧
      R plan.placements r.board (a.run r).2.board := by
  obtain ⟨f, r₁, hx, hr⟩ | ⟨plan, header, r₁, hx, hr⟩ := a.run_cases r
  · refine .inl ⟨f, r₁, hx, ?_⟩
    rw [hr]
    exact (hplan [] r).error hx
  · have hplanned : R plan.placements r.board r₁.board := (hplan plan.placements r).ok hx
    refine .inr ⟨plan, header, r₁, hx, ?_⟩
    obtain ⟨r₂, hy, hr⟩ | ⟨f, r₂, hy, hr⟩ := hr
    · rw [hr]
      exact htrans _ hplanned ((hinstall hx r₁).ok hy)
    · obtain ⟨o, b, ha, hundone⟩ := ((a.abandon_ends plan f r₂).and (hundo plan r₂.board)).outcome
      rw [hr, ha]
      exact htrans _ (htrans _ hplanned ((hinstall hx r₁).error hy)) hundone

theorem run_course (a : Attempt) {r : Rig σ} (hp : r.board.store.Plain) :
    ∃ ms, Does ms r.board (a.run r).2.board ∧ a.Course a.config.flow r ms (a.run r).1 := by
  have hs := a.plan_settled a.config.flow hp
  obtain ⟨f, r₁, hx, hr⟩ | ⟨plan, header, r₁, hx, hr⟩ := a.run_cases r
  · obtain ⟨ss, settled, hd, hc, _⟩ := hs.error hx
    rw [hr]
    exact ⟨ss, hd, .unplanned hx hc⟩
  · obtain ⟨ss, settled, hd, hc, hk, _⟩ := hs.ok hx
    obtain rfl := hk rfl
    have hi := a.install_installs a.config.flow plan (hd.plain hp)
    obtain ⟨r₂, hy, hr⟩ | ⟨f, r₂, hy, hr⟩ := hr
    · obtain ⟨ms, hm, hi⟩ := hi.ok hy
      rw [hr]
      exact ⟨ss ++ ms, hd.trans hm, .installed hx hc hi⟩
    · obtain ⟨ms, hm, hi⟩ := hi.error hy
      obtain ⟨o, b, ha, us, hu, hun⟩ :=
        ((a.abandon_ends plan f r₂).and (Board.rollBack_undoes a.aperture plan r₂.board)).outcome
      rw [hr, ha]
      exact ⟨ss ++ ms ++ us, (hd.trans hm).trans hu, .abandoned hx hc hi hun⟩

/-- The order of an attempt. Its writes and erasures, those that fail included, are a course: first
the address of bank 2, then the erasures, the payloads, the signature after the check of the whole
plan, and the active bank. After a failure there is at most the erasure of one sector. -/
theorem mutations_run (a : Attempt) {r : Rig σ} (hp : r.board.store.Plain) :
    ∃ ms, (a.run r).2.board.mutations = r.board.mutations ++ ms ∧
      a.Course a.config.flow r ms (a.run r).1 := by
  obtain ⟨ms, hd, hc⟩ := a.run_course hp
  exact ⟨ms, hd.mutations, hc⟩

end Attempt

/-! A small device, and a container with an image for the bank that does not run. -/
namespace Sample

def attempt : Attempt where
  aperture := { base := 0 }
  config := { flashBase := 0, bank1Address := 0, defaultBank2Address := 0x1000,
              secondaryAddress := 0x2000 }
  running := .bank2

def primary : Bytes := [1, 2, 3, 4, 5, 6, 7, 8, 9, 10]

def secondary : Bytes := [11, 12, 13]

def record (tag : Tag) (image : Bytes) (offset address : Word) : Bytes :=
  tag.bytes ++ (24 : Word).toBytes ++ (Checksum.of image).toBytes ++
    Word.toBytes (.ofNat image.length) ++ offset.toBytes ++ address.toBytes

def container : Bytes :=
  (1 : Word).toBytes ++ (2 : Word).toBytes ++ record .ota1 primary 56 0 ++
    record .rdp secondary 66 0x2000 ++ primary ++ secondary

/-- The connection serves `data` in portions of one and two bytes in turn. -/
def rig (data : Bytes) : Rig Scripted where
  link := { data, script := [.serve 1, .serve 2] }
  board := { chip := { size := 0x3000 }, store := .memory {} }
  buffer := List.replicate 64 0

end Sample

theorem Attempt.mutations_run_sample : (Sample.rig Sample.container).board.store.Plain ∧
    (Sample.attempt.run (Sample.rig Sample.container)).1 = ⟨.commitSuccess, .reboot .bank1⟩ ∧
    ∃ ms, (Sample.attempt.run (Sample.rig Sample.container)).2.board.mutations =
        (Sample.rig Sample.container).board.mutations ++ ms ∧
      Sample.attempt.Course .container (Sample.rig Sample.container) ms
        (Sample.attempt.run (Sample.rig Sample.container)).1 :=
  ⟨rfl, by decide +kernel, Sample.attempt.mutations_run rfl⟩

end DualBank
