import DualBank.Proofs.Durable

/-! The words that a device keeps. Those in memory are there however many calls on them fail, and
those in a record as long as no call on the chip fails. A write to one of them leaves the other, and
has its effect or none. Nothing else changes a word, if it is clear of the record. -/
namespace DualBank

theorem Event.store_act {e : Event} (h : e.Unset) (b : Board) : (e.act b).store = b.store := by
  unfold Event.act
  split
  · rfl
  · rfl
  · exact absurd rfl (h _)
  · rfl

/-- Calls that set no word leave the store. -/
theorem Event.store_replay {ms : List Event} (h : ∀ e ∈ ms, e.Unset) (b : Board) :
    (ms.foldl Event.act b).store = b.store := by
  induction ms generalizing b with
  | nil => rfl
  | cons e ms ih =>
    rw [List.foldl_cons, ih fun e' he' => h e' (List.mem_cons_of_mem _ he'),
      store_act (h e List.mem_cons_self)]

namespace Board

/-- The word in a slot. One in memory is there, whether or not a read of it is set to fail. -/
def kept? (b : Board) (slot : Slot) : Option Word :=
  match b.store with
  | .memory m => some (m.value slot)
  | .record _ _ => b.word? slot

/-- The words are in memory of their own, or in a record that has a sector to itself, on a chip that
has no call set to fail. -/
def Lasting (b : Board) : Prop :=
  b.store.home? = none ∨ ∃ a address offset, b.Records a address offset

variable {a : Aperture} {ps : List Placement} {b b' b'' : Board} {slot : Slot} {value : Word}

theorem kept?_of_home? (h : b.store.home? = none) (slot : Slot) :
    b.kept? slot = b.store.value? slot := by
  unfold kept?
  cases hs : b.store with
  | memory m => rfl
  | record a address => rw [hs] at h; cases h

theorem Records.kept? {address : Word} {offset : Nat} (h : b.Records a address offset)
    (slot : Slot) : b.kept? slot = some (b.recorded offset slot) := by
  rw [Board.kept?, h.store]
  exact h.word? slot

/-- The words are safe, where they were, and what they were. -/
structure Preserves (b b' : Board) : Prop where
  lasting : b'.Lasting
  home : b'.store.home? = b.store.home?
  kept : ∀ slot, b'.kept? slot = b.kept? slot

/-- The words are safe and where they were, and no word has changed but that of one slot, to one
value. -/
structure Puts (slot : Slot) (value : Word) (b b' : Board) : Prop where
  lasting : b'.Lasting
  home : b'.store.home? = b.store.home?
  kept : ∀ slot', b'.kept? slot' = b.kept? slot' ∨ slot' = slot ∧ b'.kept? slot' = some value

theorem Lasting.of_does {ms : List Event} (h : b.Lasting) (hd : Does ms b b')
    (hunset : ∀ e ∈ ms, e.Unset) (hcovered : ∀ e ∈ ms, e.Covered a ps)
    (hapart : b.store.Apart a ps) : b.Preserves b' := by
  obtain h | ⟨a', address, offset, h⟩ := h
  · have hhome : b'.store.home? = none := hd.home?.trans h
    refine ⟨.inl hhome, hd.home?, fun slot => ?_⟩
    have hstore := hd.replay.store
    rw [Event.store_replay hunset] at hstore
    rw [kept?_of_home? hhome, kept?_of_home? h, hstore.value?]
  · have h' := h.does hd
    refine ⟨.inr ⟨a', address, offset, h'⟩, hd.home?, fun slot => ?_⟩
    rw [h'.kept?, h.kept?, h.recorded_does hd hcovered hapart]

theorem Lasting.silent (h : b.Lasting) (hs : Silent b b') : b.Preserves b' :=
  h.of_does hs (by simp) (by simp) (b.store.apart_nil { base := 0 })

/-- A read of a slot answers the word that is kept there. -/
theorem readSlot_kept (slot : Slot) (b : Board) :
    Ends (readSlot slot) b fun o b' => Silent b b' ∧ ∀ v, o = .ok v → b.kept? slot = some v := by
  refine (Quiet.readSlot slot b).and ?_
  obtain ⟨chip, store, journal⟩ := b
  cases store with
  | record a address => exact Ends.self.mono fun o b' h v hv => answer?_eq_some.2 ⟨b', h v hv⟩
  | memory m =>
    unfold readSlot
    refine Ends.get_bind ?_
    unfold onMemory SlotMemory.read Ends
    dsimp only
    by_cases hf : m.failsRead (m.readCalls + 1) = true
    · rw [if_pos hf]
      exact fun _ hv => nomatch hv
    · rw [if_neg hf]
      intro v hv
      cases hv
      cases slot <;> rfl

/-- A write to a slot leaves the other, and has its effect or none. -/
theorem Lasting.writeSlot (h : b.Lasting) (slot : Slot) (value : Word) :
    Ends (writeSlot slot value) b fun _ b' => b.Puts slot value b' := by
  obtain h | ⟨a, address, offset, h⟩ := h
  · obtain ⟨chip, store, journal⟩ := b
    cases store with
    | record a address => cases h
    | memory m =>
      unfold Board.writeSlot
      refine Ends.get_bind ?_
      unfold onMemory SlotMemory.write Ends
      dsimp only
      by_cases hf : m.failsWrite (m.writeCalls + 1) = true
      · rw [if_pos hf]
        exact ⟨.inl rfl, rfl, fun slot' => .inl (by cases slot' <;> rfl)⟩
      · rw [if_neg hf]
        refine ⟨.inl rfl, rfl, fun slot' => ?_⟩
        by_cases hi : m.ignoresWrites = true
        · simp only [hi, if_true]
          exact .inl (by cases slot' <;> rfl)
        · simp only [hi, if_false, Bool.false_eq_true]
          cases slot <;> cases slot' <;> simp [kept?, SlotMemory.put, SlotMemory.value, note]
  · refine (h.writeSlot_ok slot value).mono fun o b' hwritten => ?_
    obtain ⟨_, hrecords, hwords, _⟩ := hwritten
    refine ⟨.inr ⟨a, address, offset, hrecords⟩, by rw [hrecords.home?, h.home?], fun slot' => ?_⟩
    rw [hrecords.kept?, h.kept?, hwords]
    by_cases heq : slot' = slot
    · exact .inr ⟨heq, by rw [if_pos heq]⟩
    · exact .inl (by rw [if_neg heq])

end Board
end DualBank
