import DualBank.Proofs.Purpose
import DualBank.Proofs.Record
import DualBank.Proofs.Verdict

/-! The durable words of a device without faults, in memory of their own or in a record that has a
sector to itself. A write to one of them is done and leaves the other. What else an attempt does
changes neither, as long as the images of its plan are clear of the record; only its last step sets
the active bank. -/
namespace DualBank

variable {ε σ α : Type}

namespace Store

/-- The byte of the chip is in the sector of the record. -/
def Holds (s : Store) (i : Nat) : Prop :=
  ∃ a address, s.home? = some (a, address) ∧
    address.toNat ≤ a.base.toNat + i ∧ a.base.toNat + i < address.toNat + sectorSize

/-- The images are clear of the record, if there is one. -/
def Apart (s : Store) (a : Aperture) (ps : List Placement) : Prop :=
  ∀ p ∈ ps, ∀ i, s.Holds i → ¬a.Covers p i

theorem apart_nil (s : Store) (a : Aperture) : s.Apart a [] := by simp [Apart]

theorem apart_memory {s : Store} (h : s.home? = none) (a : Aperture) (ps : List Placement) :
    s.Apart a ps := by
  rintro p _ i ⟨_, _, hhome, _⟩
  rw [h] at hhome
  cases hhome

theorem Apart.congr {s s' : Store} {a : Aperture} {ps : List Placement} (h : s.Apart a ps)
    (hhome : s'.home? = s.home?) : s'.Apart a ps := by
  rintro p hp i ⟨a', address, hs', hi⟩
  exact h p hp i ⟨a', address, hhome.symm.trans hs', hi⟩

end Store

/-- A byte that a call of the store touches is one of the record. -/
theorem Event.OfStore.holds {c : Config} {s : Store} {e : Event} {i : Nat}
    (h : e.OfStore c s.home?) (hi : e.Touches i) : s.Holds i := by
  unfold OfStore at h
  split at h
  · obtain ⟨slot, value, failed, rfl, _⟩ := h
    exact hi.elim
  · rename_i a address hhome
    exact ⟨a, address, hhome, h i hi⟩

namespace Board

/-- What a read of the slot answers. -/
def word? (b : Board) (slot : Slot) : Option Word := answer? (readSlot slot) b

/-- No call on the words or the chip is set to fail, and a record has a sector to itself. -/
def Durable (b : Board) : Prop := b.Faultless ∨ ∃ a address offset, b.Records a address offset

variable {b b' b'' : Board} {a : Aperture} {ps : List Placement} {bank : Bank}

theorem Durable.chip (h : b.Durable) : b.chip.Faultless := by
  obtain h | ⟨_, _, _, h⟩ := h
  · exact h.chip
  · exact h.faultless

theorem Faultless.home? (h : b.Faultless) : b.store.home? = none := by
  have hstore := h.store
  cases hs : b.store with
  | memory m => rfl
  | record a address => rw [hs] at hstore; cases hstore

theorem Faultless.word? (h : b.Faultless) (slot : Slot) : b.word? slot = b.store.value? slot := by
  obtain ⟨o, t, ⟨_, _, _, ho⟩, hx⟩ := (readSlot_ends h.store.plain slot).outcome_eq
  rw [Board.word?, answer?, hx]
  cases o with
  | ok v => exact ho.symm
  | error e => exact absurd h.store ho.2

namespace Records

variable {address : Word} {offset : Nat}

theorem home? (h : b.Records a address offset) : b.store.home? = some (a, address) := by
  rw [h.store]
  rfl

theorem holds (h : b.Records a address offset) {i : Nat} (hlo : offset ≤ i)
    (hhi : i < offset + sectorSize) : b.store.Holds i := by
  have hbase := Aperture.offset_eq_ok.1 h.offset_eq
  exact ⟨a, address, h.home?, by omega, by omega⟩

theorem word? (h : b.Records a address offset) (slot : Slot) :
    b.word? slot = some (b.recorded offset slot) := by
  obtain ⟨o, t, ⟨rfl, _⟩, hx⟩ := (h.readSlot_ok slot).outcome_eq
  rw [Board.word?, answer?, hx]
  rfl

/-- Calls that neither set a word nor touch the sector leave a record. -/
theorem does {ms : List Event} (h : b.Records a address offset) (hd : Does ms b b') :
    b'.Records a address offset := by
  refine h.of_chip ?_ hd.size (hd.chip_faultless h.faultless)
  have hhome := hd.home?.trans h.home?
  rw [h.store]
  cases hs : b'.store with
  | memory m => rw [hs] at hhome; cases hhome
  | record a' address' => rw [hs] at hhome; cases hhome; rfl

/-- Calls for images that are clear of a record leave its words. A call that touched a word would be
for an image that meets the record. -/
theorem recorded_does {a' : Aperture} {ms : List Event} (h : b.Records a' address offset)
    (hd : Does ms b b') (hcovered : ∀ e ∈ ms, e.Covered a ps) (hapart : b.store.Apart a ps)
    (slot : Slot) : b'.recorded offset slot = b.recorded offset slot := by
  refine Chip.word_congr fun i hlo hhi => ?_
  have hwithin := h.within
  have hslot := slot.position_add_le
  simp only [sectorSize] at hwithin
  refine hd.byte (by omega) fun e he hi => ?_
  obtain ⟨p, hp, hc⟩ := hcovered e he i hi
  refine hapart p hp i (h.holds (by omega) ?_) hc
  simp only [sectorSize]
  omega

end Records

/-! ## Calls on the words -/

/-- The words are safe and where they were, and the active bank is `w`. -/
structure Retains (w : Option Word) (b b' : Board) : Prop where
  durable : b'.Durable
  home : b'.store.home? = b.store.home?
  size : b'.chip.size = b.chip.size
  active : b'.word? .activeBank = w

/-- Each write to a slot is done, and leaves the other slot. -/
theorem Durable.writeSlot_ok (h : b.Durable) (slot : Slot) (value : Word) :
    Ends (writeSlot slot value) b fun o b' => o = .ok () ∧
      b.Retains (if .activeBank = slot then some value else b.word? .activeBank) b' := by
  obtain hf | ⟨a, address, offset, h⟩ := h
  · refine (writeSlot_ends hf.store.plain slot value).mono fun o b' hwritten => ?_
    obtain ⟨hchip, hwritten⟩ := hwritten
    cases o with
    | error e => exact absurd hf.store hwritten.2.2.2
    | ok v =>
      have hf' : b'.Faultless :=
        ⟨hchip ▸ hf.chip, hwritten.1.faultless (Store.faultless_put hf.store _ _)⟩
      refine ⟨rfl, .inl hf', by rw [hf'.home?, hf.home?], by rw [hchip], ?_⟩
      rw [hf'.word?, hf.word?, hwritten.1.value?, Store.value?_put hf.store.plain]
  · refine (h.writeSlot_ok slot value).mono fun o b' hwritten => ?_
    obtain ⟨ho, hrecords, hwords, hspared⟩ := hwritten
    refine ⟨ho, .inr ⟨a, address, offset, hrecords⟩, by rw [hrecords.home?, h.home?],
      hspared.size, ?_⟩
    rw [hrecords.word?, h.word?, hwords]
    split <;> rfl

/-! ## Calls for images -/

/-- Calls for the images that set no word keep the relation. -/
structure KeptForImages (a : Aperture) (ps : List Placement) (R : Board → Board → Prop) : Prop where
  trans : ∀ {b b' b''}, R b b' → R b' b'' → R b b''
  does : ∀ {ms b b'}, Does ms b b' → (∀ e ∈ ms, Event.Unset e) → (∀ e ∈ ms, e.Covered a ps) → R b b'

namespace KeptForImages

variable {R : Board → Board → Prop} {plan : Plan}

theorem silent (h : KeptForImages a ps R) (hs : Silent b b') : R b b' :=
  h.does hs (by simp) (by simp)

theorem flashReads (h : KeptForImages a ps R) : KeptByReads R := .of_silent h.trans h.silent

theorem reads [Link σ] (h : KeptForImages a ps R) : Rig.KeptByReads σ R :=
  .of_silent h.trans h.silent

theorem eraseTargets (h : KeptForImages a ps R) : Keeps R (eraseTargets a ps) := fun b =>
  (eraseTargets_erasures a ps b).mono fun _ _ ⟨_, hd, he⟩ => h.does hd he.unset he.covered

theorem rollBack (h : KeptForImages a plan.placements R) : Keeps R (rollBack a plan) := fun b =>
  (rollBack_undoes a plan b).mono fun _ _ ⟨_, hd, hu⟩ => h.does hd hu.unset hu.covered

/-- The signature goes to the first sector of the target. -/
theorem sign (h : KeptForImages a plan.placements R) {address : Word}
    (hb : plan.bankAddress? = some address) (signature : Signature) :
    Keeps R (a.write address signature.bytes) := by
  intro b
  refine (a.write_does address signature.bytes b).mono fun o b' hw => ?_
  obtain ⟨_, hd⟩ | ⟨offset, fault, ho, _, hd⟩ := hw
  · exact h.silent hd
  · refine h.does hd (by simpa using Event.unset_flash _ _) ?_
    simp only [List.mem_singleton, forall_eq]
    intro i hi
    obtain ⟨hlo, hhi⟩ := hi.write
    rw [signature.length_bytes] at hhi
    refine a.covers_bankAddress hb ho hlo ?_
    simp only [sectorSize]
    omega

theorem deliver [Link σ] {a : Attempt} (h : KeptForImages a.aperture plan.placements R)
    (hw : plan.WellFormed) : Rig.Keeping R (a.deliver plan : Attempt.Staged σ Summary) := by
  have htransfer : Rig.Keeping R (Rig.transfer a.aperture plan : Rig.Action σ Summary) := fun r =>
    (Rig.transfer_payloads a.aperture plan r).mono fun _ _ ⟨_, _, hd, hp, _⟩ =>
      h.does hd hp.unset (hp.covered hw.fits)
  exact h.reads.deliver h.eraseTargets htransfer

end KeptForImages

/-! ## What leaves the active bank, and what sets it -/

/-- Safe words stay so, and so does the active bank, if the images are clear of the record. -/
def Secures (a : Aperture) (ps : List Placement) (b b' : Board) : Prop :=
  b.Durable → b.store.Apart a ps → b.Retains (b.word? .activeBank) b'

/-- Likewise, but with another active bank. -/
def Selects (a : Aperture) (ps : List Placement) (bank : Bank) (b b' : Board) : Prop :=
  b.Durable → b.store.Apart a ps → b.Retains (some bank.toWord) b'

theorem Retains.trans {w w' : Option Word} (h : b.Retains w b') (h' : b'.Retains w' b'') :
    b.Retains w' b'' :=
  ⟨h'.durable, h'.home.trans h.home, h'.size.trans h.size, h'.active⟩

theorem Secures.refl (b : Board) : b.Secures a ps b := fun h _ => ⟨h, rfl, rfl, rfl⟩

theorem Secures.selects (h : b.Secures a ps b') (h' : b'.Selects a ps bank b'') :
    b.Selects a ps bank b'' := by
  intro hd hapart
  have hb := h hd hapart
  exact hb.trans (h' hb.durable (hapart.congr hb.home))

theorem Secures.trans (h : b.Secures a ps b') (h' : b'.Secures a ps b'') : b.Secures a ps b'' := by
  intro hd hapart
  have hb := h hd hapart
  rw [← hb.active]
  exact hb.trans (h' hb.durable (hapart.congr hb.home))

/-- Calls for the images leave the words. -/
theorem Secures.of_does {ms : List Event} (hd : Does ms b b') (hunset : ∀ e ∈ ms, e.Unset)
    (hcovered : ∀ e ∈ ms, e.Covered a ps) : b.Secures a ps b' := by
  intro hdurable hapart
  obtain hf | ⟨a', address, offset, h⟩ := hdurable
  · have hf' := hd.faultless hf
    refine ⟨.inl hf', hd.home?, hd.size, ?_⟩
    rw [hf'.word?, hf.word?]
    exact hd.value? hf.store.plain fun e he => hunset e he _
  · have h' := h.does hd
    refine ⟨.inr ⟨a', address, offset, h'⟩, hd.home?, hd.size, ?_⟩
    rw [h'.word?, h.word?, h.recorded_does hd hcovered hapart]

/-- An action that succeeds has set the active bank, and one that fails has left it. -/
def Concludes (a : Aperture) (ps : List Placement) (bank : Bank) (b : Board) (o : Except ε α)
    (b' : Board) : Prop :=
  match o with
  | .ok _ => b.Selects a ps bank b'
  | .error _ => b.Secures a ps b'

theorem Secures.concludes {o : Except ε α} (h : b.Secures a ps b')
    (h' : b'.Concludes a ps bank o b'') : b.Concludes a ps bank o b'' := by
  cases o with
  | ok v => exact h.selects h'
  | error e => exact h.trans h'

theorem images_secured (a : Aperture) (ps : List Placement) : KeptForImages a ps (Secures a ps) :=
  ⟨.trans, .of_does⟩

/-! ## The actions of an attempt -/

theorem writeSlot_bank2_secures (value : Word) :
    Keeps (Secures a ps) (writeSlot .bank2Address value) := by
  intro b
  refine Ends.of_cases (fun _ b' hx hd _ => ?_) fun _ b' hx hd _ => ?_
  · exact ((hd.writeSlot_ok .bank2Address value).ok hx).2
  · exact absurd ((hd.writeSlot_ok .bank2Address value).error hx).1 (by simp)

theorem writeSlot_active_concludes (bank : Bank) (b : Board) :
    Ends (writeSlot .activeBank bank.toWord) b (b.Concludes a ps bank) := by
  refine Ends.of_cases (fun _ b' hx hd _ => ?_) fun _ b' hx hd _ => ?_
  · exact ((hd.writeSlot_ok .activeBank bank.toWord).ok hx).2
  · exact absurd ((hd.writeSlot_ok .activeBank bank.toWord).error hx).1 (by simp)

end Board

namespace Attempt

open Board

theorem finish_concludes (a : Attempt) (flow : Flow) (plan : Plan) (s : Summary) (b : Board) :
    Ends (a.finish flow plan s) b (b.Concludes a.aperture plan.placements plan.targetBank) := by
  obtain ⟨e, hx⟩ | ⟨address, hb, ⟨_, hx⟩ | ⟨signature, _, _, hx⟩⟩ := a.finish_cases flow plan s
  · rw [hx]
    exact Ends.throw (.refl b)
  · rw [hx]
    exact writeSlot_active_concludes _ b
  · rw [hx]
    refine ((images_secured a.aperture plan.placements).sign hb signature b).bind
      (fun _ b₁ h => ?_) fun _ _ h => h
    exact (writeSlot_active_concludes _ b₁).mono fun _ _ => h.concludes

variable [Link σ]

theorem planning_secures (c : Config) (a : Aperture) (ps : List Placement) :
    Rig.KeptByPlanning σ c (Secures a ps) :=
  .of_silent .trans (images_secured a ps).silent (writeSlot_bank2_secures _)

/-- An installation ends with the target as the active bank, or it leaves the active bank. -/
theorem install_concludes (a : Attempt) (flow : Flow) {plan : Plan} (hw : plan.WellFormed)
    (r : Rig σ) : Ends (a.install flow plan) r fun o r' =>
      r.board.Concludes a.aperture plan.placements plan.targetBank o r'.board := by
  have hdeliver : Rig.Keeping (Secures a.aperture plan.placements)
      (a.deliver plan : Staged σ Summary) := (images_secured _ _).deliver hw
  rw [install_eq]
  refine (hdeliver r).bind (fun s r₁ h => ?_) fun _ _ h => h
  refine Ends.during (Ends.onBoard ((a.finish_concludes flow plan s r₁.board).mono
    fun o b hb => ?_))
  cases o <;> exact h.concludes hb

end Attempt
end DualBank
