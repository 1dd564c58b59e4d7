import DualBank.Proofs.Contents

/-! Work on two devices that hold the same. Nothing that an attempt does to a device depends on the
counters of its calls, so from two such devices it comes to one outcome, and the devices hold the
same again. -/
namespace DualBank

variable {α β : Type}

/-- Chips that hold the same bytes answer alike, and hold the same bytes afterwards. -/
def Chip.Congruent (x : Chip.Action α) : Prop := ∀ c₁ c₂ : Chip, c₁.Same c₂ → c₁.Faultless →
  EndAlike x c₁ x c₂ fun _ d₁ d₂ => d₁.Same d₂ ∧ d₁.Faultless

namespace Chip

theorem Answers.alike {op : FlashOp} {refusal : Option FlashError} {v : α}
    {c₁ c₂ d₁ d₂ after₁ after₂ : Chip} {o₁ o₂ : Except FlashError α}
    (h₁ : c₁.Answers op refusal v after₁ o₁ d₁) (h₂ : c₂.Answers op refusal v after₂ o₂ d₂)
    (hs : c₁.Same c₂) (hf : c₁.Faultless) (ha : after₁.Same after₂) (haf : after₁.Faultless) :
    o₁ = o₂ ∧ d₁.Same d₂ ∧ d₁.Faultless := by
  have hf₂ := hs.faultless hf
  cases o₁ with
  | ok w₁ =>
    obtain ⟨hr, rfl, hd₁⟩ := h₁
    cases o₂ with
    | ok w₂ =>
      obtain ⟨_, rfl, hd₂⟩ := h₂
      exact ⟨rfl, (hd₁.symm.trans ha).trans hd₂, hd₁.faultless haf⟩
    | error e =>
      obtain ⟨_, he | ⟨n, hn⟩⟩ := h₂
      · rw [hr] at he; cases he
      · rw [hf₂] at hn; cases hn
  | error e₁ =>
    obtain ⟨hd₁, he₁ | ⟨n, hn⟩⟩ := h₁
    · cases o₂ with
      | ok w₂ =>
        obtain ⟨hr, _⟩ := h₂
        rw [he₁] at hr
        cases hr
      | error e₂ =>
        obtain ⟨hd₂, he₂ | ⟨n, hn⟩⟩ := h₂
        · rw [he₁] at he₂
          cases he₂
          exact ⟨rfl, (hd₁.symm.trans hs).trans hd₂, hd₁.faultless hf⟩
        · rw [hf₂] at hn; cases hn
    · rw [hf] at hn; cases hn

theorem congruent_read (offset len : Nat) : Congruent (read offset len) := by
  intro c₁ c₂ hs hf
  refine EndAlike.of_ends (c₁.read_ends offset len) (c₂.read_ends offset len) fun h₁ h₂ => ?_
  obtain ⟨_, _, _, rfl⟩ := id hs
  exact h₁.alike h₂ hs hf hs hf

theorem congruent_write (offset : Nat) (b : Bytes) : Congruent (write offset b) := by
  intro c₁ c₂ hs hf
  refine EndAlike.of_ends (c₁.write_ends offset b) (c₂.write_ends offset b) fun h₁ h₂ => ?_
  obtain ⟨_, _, _, rfl⟩ := id hs
  exact h₁.alike h₂ hs hf (hs.preset offset b) hf

theorem congruent_erase (start stop : Nat) : Congruent (erase start stop) := by
  intro c₁ c₂ hs hf
  refine EndAlike.of_ends (c₁.erase_ends start stop) (c₂.erase_ends start stop) fun h₁ h₂ => ?_
  obtain ⟨_, _, _, rfl⟩ := id hs
  exact h₁.alike h₂ hs hf (hs.wiped start stop) hf

end Chip

/-- Devices that hold the same answer alike, and hold the same afterwards. -/
def Board.Congruent (x : Board.Action α) : Prop := ∀ b₁ b₂ : Board, b₁.Same b₂ → b₁.Faultless →
  EndAlike x b₁ x b₂ fun _ t₁ t₂ => t₁.Same t₂ ∧ t₁.Faultless

namespace Board.Congruent

variable {x : Board.Action α} {f : α → Board.Action β}

theorem pure (v : α) : Board.Congruent (Pure.pure v) := fun _ _ hs hf => EndAlike.pure ⟨hs, hf⟩

theorem throw (e : UpdateError) : Board.Congruent (MonadExcept.throw e : Board.Action α) :=
  fun _ _ hs hf => EndAlike.throw ⟨hs, hf⟩

theorem ofExcept (y : Except UpdateError α) : Board.Congruent (MonadExcept.ofExcept y) :=
  fun _ _ hs hf => EndAlike.ofExcept ⟨hs, hf⟩

theorem bind (hx : Board.Congruent x) (hf : ∀ v, Board.Congruent (f v)) :
    Board.Congruent (x >>= f) := fun b₁ b₂ hs hb =>
  (hx b₁ b₂ hs hb).bind (fun v t₁ t₂ h => hf v t₁ t₂ h.1 h.2) fun _ _ _ h => h

theorem guard {c : Prop} [Decidable c] {e : UpdateError} {k : α → Board.Action β}
    {y : Board.Action β} (hy : Board.Congruent y) :
    Board.Congruent (if c then MonadExcept.throw e >>= k else y) := fun b₁ b₂ hs hb =>
  EndAlike.guard (fun _ => ⟨hs, hb⟩) fun _ => hy b₁ b₂ hs hb

theorem through (a : Aperture) (call : FlashCall) {x : Chip.Action α} (hx : Chip.Congruent x) :
    Board.Congruent (a.through (Board.onChip call x)) := by
  intro b₁ b₂ hs hf
  refine (a.through_ends (hx _ _ hs.chip hf.chip)).mono fun o₁ t₁ h₁ => ?_
  obtain ⟨hh, rfl, rfl⟩ | ⟨hh, o₁, c₁, hx₂, rfl, rfl⟩ := h₁
  · have hany : Ends x b₂.chip fun _ _ => True :=
      Ends.of_cases (fun _ _ _ => trivial) fun _ _ _ => trivial
    refine (a.through_ends hany).mono fun o₂ t₂ h₂ => ?_
    obtain ⟨_, rfl, rfl⟩ | ⟨hh', _⟩ := h₂
    · exact ⟨rfl, hs, hf⟩
    · rw [hh] at hh'
      cases hh'
  · refine (a.through_ends hx₂).mono fun o₂ t₂ h₂ => ?_
    obtain ⟨hh', _⟩ | ⟨_, o₂, c₂, ⟨rfl, hc, hcf⟩, rfl, rfl⟩ := h₂
    · rw [hh] at hh'
      cases hh'
    · exact ⟨rfl, ⟨hc, hs.store⟩, ⟨hcf, hf.store⟩⟩

theorem readFlash (a : Aperture) (address : Word) (len : Nat) :
    Board.Congruent (a.read address len) :=
  (ofExcept _).bind fun offset => through a _ (Chip.congruent_read offset len)

theorem readWord (a : Aperture) (address : Word) : Board.Congruent (a.readWord address) :=
  (readFlash a address 4).bind fun _ => pure _

theorem writeFlash (a : Aperture) (address : Word) (bytes : Bytes) :
    Board.Congruent (a.write address bytes) :=
  (ofExcept _).bind fun offset => through a _ (Chip.congruent_write offset bytes)

theorem eraseFlash (a : Aperture) (address len : Word) : Board.Congruent (a.erase address len) :=
  (ofExcept _).bind fun range => through a _ (Chip.congruent_erase range.1 range.2)

theorem readSlot (slot : Slot) : Board.Congruent (Board.readSlot slot) := by
  intro b₁ b₂ hs hf
  have hf₂ := hs.faultless hf
  refine EndAlike.of_ends (Board.readSlot_ends hf.store.plain slot)
    (Board.readSlot_ends hf₂.store.plain slot) fun {o₁ o₂ t₁ t₂} h₁ h₂ => ?_
  obtain ⟨hc₁, hs₁, _, hv₁⟩ := h₁
  obtain ⟨hc₂, hs₂, _, hv₂⟩ := h₂
  have hboards : t₁.Same t₂ ∧ t₁.Faultless :=
    ⟨⟨hc₁ ▸ hc₂ ▸ hs.chip, (hs₁.symm.trans hs.store).trans hs₂⟩,
      ⟨hc₁ ▸ hf.chip, hs₁.faultless hf.store⟩⟩
  cases o₁ with
  | error e => exact absurd hf.store hv₁.2
  | ok v₁ =>
    cases o₂ with
    | error e => exact absurd hf₂.store hv₂.2
    | ok v₂ =>
      have hv : some v₁ = some v₂ := hv₁.symm.trans ((hs.store.value? slot).symm.trans hv₂)
      cases hv
      exact ⟨rfl, hboards⟩

theorem writeSlot (slot : Slot) (value : Word) : Board.Congruent (Board.writeSlot slot value) := by
  intro b₁ b₂ hs hf
  have hf₂ := hs.faultless hf
  refine EndAlike.of_ends (Board.writeSlot_ends hf.store.plain slot value)
    (Board.writeSlot_ends hf₂.store.plain slot value) fun {o₁ o₂ t₁ t₂} h₁ h₂ => ?_
  obtain ⟨hc₁, hw₁⟩ := h₁
  obtain ⟨hc₂, hw₂⟩ := h₂
  cases o₁ with
  | error e => exact absurd hf.store hw₁.2.2.2
  | ok _ =>
    cases o₂ with
    | error e => exact absurd hf₂.store hw₂.2.2.2
    | ok _ =>
      have hstores := (hw₁.1.symm.trans (hs.store.put slot value)).trans hw₂.1
      exact ⟨rfl, ⟨hc₁ ▸ hc₂ ▸ hs.chip, hstores⟩,
        ⟨hc₁ ▸ hf.chip, hw₁.1.faultless (Store.faultless_put hf.store _ _)⟩⟩

/-! ## Where the banks are -/

section
variable (c : Config) (a : Aperture)

theorem bank1End : Board.Congruent (c.bank1End a) :=
  (ofExcept _).bind fun _ => (readWord a _).bind fun _ => (ofExcept _).bind fun _ =>
    (ofExcept _).bind fun _ => (readWord a _).bind fun _ => ofExcept _

theorem checkClear (bank2 : Word) : Board.Congruent (c.checkClear a bank2) := by
  refine (bank1End c a).bind fun stop => ?_
  split
  · exact throw _
  · exact pure _

theorem bank2Address : Board.Congruent c.bank2Address := by
  refine (readSlot _).bind fun stored => ?_
  have hcheck : ∀ v, Board.Congruent
      (do MonadExcept.ofExcept (Config.checkBank2 v); return v : Board.Action Word) :=
    fun v => (ofExcept _).bind fun _ => pure v
  by_cases he : stored = erasedWord
  · rw [if_pos he]
    exact (writeSlot _ _).bind fun _ => (readSlot _).bind hcheck
  · rw [if_neg he]
    exact hcheck stored

theorem targetAddress (target : Bank) (imageLen : Word) :
    Board.Congruent (c.targetAddress a target imageLen) := by
  refine (bank2Address c).bind fun bank2 => ?_
  cases target with
  | bank1 => exact (ofExcept _).bind fun _ => guard (pure _)
  | bank2 => exact (checkClear c a bank2).bind fun _ => guard (pure _)

theorem resolve (running : Bank) (primary : ImageHeader) :
    Board.Congruent (c.resolve a running primary) :=
  (targetAddress c a _ _).bind fun _ => guard (pure _)

end

theorem settleBank2 (a : Attempt) : Board.Congruent a.settleBank2 :=
  (ofExcept _).bind fun _ => (checkClear _ _ _).bind fun _ => writeSlot _ _

/-! ## Installing -/

theorem eraseTargets (a : Aperture) (ps : List Placement) :
    Board.Congruent (Board.eraseTargets a ps) := by
  induction ps with
  | nil => exact pure _
  | cons p ps ih =>
    unfold Board.eraseTargets
    split
    · split
      · exact (eraseFlash a _ _).bind fun _ => ih
      · exact throw _
    · exact throw _

theorem commit (a : Aperture) (plan : Plan) (signature : Option Signature) :
    Board.Congruent (Board.commit a plan signature) := by
  unfold Board.commit
  split
  · cases signature with
    | none => exact writeSlot _ _
    | some s => exact (writeFlash a _ _).bind fun _ => writeSlot _ _
  · exact throw _

theorem finish (a : Attempt) (flow : Flow) (plan : Plan) (s : Summary) :
    Board.Congruent (a.finish flow plan s) := by
  unfold Attempt.finish
  cases flow with
  | bare => exact commit _ _ _
  | container =>
    dsimp only
    split
    · exact throw _
    · exact commit _ _ _

theorem rollBack (a : Aperture) (plan : Plan) : Board.Congruent (Board.rollBack a plan) := by
  unfold Board.rollBack
  split
  · exact eraseFlash a _ _
  · exact throw _

end Board.Congruent
end DualBank
