import DualBank.Proofs.Failure

/-! What each call is for. Every write and erasure of an attempt is made for one of the images of
its plan, or it is the store's own, whatever the connection brings, whichever calls fail, and
wherever the store keeps its words. So the bytes that an image can change are told by the calls for
it. -/
namespace DualBank

variable {ε S σ α β : Type}

/-- Where the record is, if the words are kept in one. -/
def Store.home? : Store → Option (Aperture × Word)
  | .memory _ => none
  | .record a address => some (a, address)

theorem Store.Same.home? {s s' : Store} (h : s.Same s') : s'.home? = s.home? := by
  cases s with
  | memory m => obtain ⟨_, _, _, rfl⟩ := h; rfl
  | record a address => cases h; rfl

namespace Event

theorem Touches.write {offset i : Nat} {bytes : Bytes} {fault : Option FlashError}
    (h : (flash (.write offset bytes) fault).Touches i) :
    offset ≤ i ∧ i < offset + bytes.length := by
  cases fault
  · exact h
  · exact h.elim

theorem Touches.erase {start stop i : Nat} {fault : Option FlashError}
    (h : (flash (.erase start stop) fault).Touches i) : start ≤ i ∧ i < stop := by
  cases fault
  · exact h
  · exact h.elim

/-- The call is the store's own: on a word in memory, or within the sector of the record. The word
for bank 2 is set to the configured address only. -/
def OfStore (c : Config) (home : Option (Aperture × Word)) (e : Event) : Prop :=
  match home with
  | none => ∃ slot value failed, e = .slotWrite slot value failed ∧
      (slot = .bank2Address → value = c.defaultBank2Address)
  | some (a, address) => ∀ i, e.Touches i →
      address.toNat ≤ a.base.toNat + i ∧ a.base.toNat + i < address.toNat + sectorSize

/-- The call is made for an image: the erasure of its region, the write of some of its payload, the
write of its signature, or the erasure that undoes all of it. -/
inductive For (a : Aperture) (p : Placement) : Event → Prop
  | erasure {start len : Word} {lo hi : Nat} {fault : Option FlashError}
      (hs : p.regionStart? = some start) (hl : p.regionLen? = some len)
      (hr : a.sectors start len = .ok (lo, hi)) : For a p (.flash (.erase lo hi) fault)
  | payload {done offset : Nat} {bytes : Bytes} {fault : Option FlashError}
      (ha : a.base.toNat + offset = p.destination.toNat + done)
      (hl : done + bytes.length ≤ p.payloadLen.toNat) :
      For a p (.flash (.write offset bytes) fault)
  | signature {start : Word} {offset : Nat} {s : Signature} {fault : Option FlashError}
      (hs : p.regionStart? = some start) (hl : p.signatureLen.toNat = Signature.length)
      (ho : a.offset start = .ok offset) : For a p (.flash (.write offset s.bytes) fault)
  | undoing {start : Word} {lo hi : Nat} {fault : Option FlashError}
      (hs : p.regionStart? = some start) (hr : a.sectors start (.ofNat sectorSize) = .ok (lo, hi)) :
      For a p (.flash (.erase lo hi) fault)

/-- A call for an image stays in its region. Only an erasure goes on to the end of the last sector,
and then the region starts on a sector of the chip. -/
theorem For.within {a : Aperture} {p : Placement} {e : Event} (h : e.For a p) {start : Word}
    (hs : p.regionStart? = some start) {i : Nat} (hi : e.Touches i) :
    start.toNat ≤ a.base.toNat + i ∧ (a.base.toNat + i < start.toNat + p.span ∨
      a.base.toNat + i < start.toNat + sectorsOf p.span ∧
        ∃ lo, a.base.toNat + lo = start.toNat ∧ lo % sectorSize = 0) := by
  have hstart := Placement.regionStart?_eq_some.1 hs
  cases h with
  | @erasure start' len lo hi' fault hs' hl hr =>
    cases hs.symm.trans hs'
    obtain ⟨hbase, rfl, halign, _⟩ := Aperture.sectors_eq_ok.1 hr
    rw [Placement.regionLen?_eq_some.1 hl] at hi
    obtain ⟨hlo, hhi⟩ := hi.erase
    exact ⟨by omega, .inr ⟨by omega, lo, hbase, halign⟩⟩
  | @payload done offset bytes fault ha hl =>
    obtain ⟨hlo, hhi⟩ := hi.write
    simp only [Placement.span]
    exact ⟨by omega, .inl (by omega)⟩
  | @signature start' offset s fault hs' hl ho =>
    cases hs.symm.trans hs'
    have hbase := Aperture.offset_eq_ok.1 ho
    obtain ⟨hlo, hhi⟩ := hi.write
    rw [s.length_bytes] at hhi
    simp only [Placement.span, hl, Signature.length]
    exact ⟨by omega, .inl (by omega)⟩
  | @undoing start' lo hi' fault hs' hr =>
    cases hs.symm.trans hs'
    obtain ⟨hbase, rfl, halign, _⟩ := Aperture.sectors_eq_ok.1 hr
    have hspan := sectorSize_le_sectorsOf p.span
    obtain ⟨hlo, hhi⟩ := hi.erase
    rw [show sectorsOf (UInt32.ofNat sectorSize).toNat = sectorSize from rfl] at hhi
    exact ⟨by omega, .inr ⟨by omega, lo, hbase, halign⟩⟩

end Event

/-! ## The calls of the grammars -/

section
variable {a : Aperture} {p : Placement} {ps : List Placement} {ms : List Event}

theorem Erasures.for {done : Bool} (h : Erasures a ps ms done) : ∀ e ∈ ms, ∃ p ∈ ps, e.For a p := by
  induction h with
  | all => simp
  | refused => simp
  | failed hs hl hr => simpa using .inl (.erasure hs hl hr)
  | next hs hl hr h ih =>
    intro e he
    rcases List.mem_cons.1 he with rfl | he
    · exact ⟨_, List.mem_cons_self, .erasure hs hl hr⟩
    · obtain ⟨p, hp, hfor⟩ := ih e he
      exact ⟨p, List.mem_cons_of_mem _ hp, hfor⟩

theorem Deposits.for {done : Nat} {whole : Bool} (h : Deposits a p done ms whole) :
    ∀ e ∈ ms, e.For a p := by
  induction h with
  | whole => simp
  | broken => simp
  | failed hb ha hl => simpa using .payload ha hl
  | next hb ha hl h ih =>
    intro e he
    rcases List.mem_cons.1 he with rfl | he
    · exact .payload ha hl
    · exact ih e he

theorem Payloads.for {whole : Bool} (h : Payloads a ps ms whole) :
    ∀ e ∈ ms, ∃ p ∈ ps, e.For a p := by
  induction h with
  | all => simp
  | image hd h ih =>
    intro e he
    rcases List.mem_append.1 he with he | he
    · exact ⟨_, List.mem_cons_self, hd.for e he⟩
    · obtain ⟨p, hp, hfor⟩ := ih e he
      exact ⟨p, List.mem_cons_of_mem _ hp, hfor⟩
  | broken hd => exact fun e he => ⟨_, List.mem_cons_self, hd.for e he⟩

end

/-! ## The calls of an attempt -/

theorem Board.home?_act (b : Board) (e : Event) : (e.act b).store.home? = b.store.home? := by
  unfold Event.act
  split
  · rfl
  · rfl
  · obtain ⟨chip, store, journal⟩ := b
    cases store <;> rfl
  · rfl

theorem Board.home?_replay (b : Board) (calls : List Event) :
    (calls.foldl Event.act b).store.home? = b.store.home? := by
  induction calls generalizing b with
  | nil => rfl
  | cons e calls ih => rw [List.foldl_cons, ih, home?_act]

theorem Does.home? {calls : List Event} {b b' : Board} (h : Does calls b b') :
    b'.store.home? = b.store.home? :=
  h.replay.store.home?.trans (Board.home?_replay b calls)

/-- Between the two states of the device every call was made for one of the images, or was the
store's own. -/
def Tends (c : Config) (a : Aperture) (ps : List Placement) (b b' : Board) : Prop :=
  ∃ ms, Does ms b b' ∧ ∀ e ∈ ms, e.OfStore c b.store.home? ∨ ∃ p ∈ ps, e.For a p

namespace Tends

variable {c : Config} {a : Aperture} {ps : List Placement} {b b' b'' : Board} {ms : List Event}

theorem silent (h : Does [] b b') : Tends c a ps b b' := ⟨[], h, by simp⟩

theorem refl (b : Board) : Tends c a ps b b := silent (.refl b)

theorem trans (h : Tends c a ps b b') (h' : Tends c a ps b' b'') : Tends c a ps b b'' := by
  obtain ⟨ms, hd, hms⟩ := h
  obtain ⟨ms', hd', hms'⟩ := h'
  refine ⟨ms ++ ms', hd.trans hd', ?_⟩
  intro e he
  rcases List.mem_append.1 he with he | he
  · exact hms e he
  · rw [← hd.home?]
    exact hms' e he

theorem of_store (hd : Does ms b b') (h : ∀ e ∈ ms, e.OfStore c b.store.home?) :
    Tends c a ps b b' :=
  ⟨ms, hd, fun e he => .inl (h e he)⟩

theorem of_for (hd : Does ms b b') (h : ∀ e ∈ ms, ∃ p ∈ ps, e.For a p) : Tends c a ps b b' :=
  ⟨ms, hd, fun e he => .inr (h e he)⟩

end Tends

namespace Board

variable {c : Config} {a : Aperture} {ps : List Placement}

theorem slotAddress_eq_ok {address home : Word} {slot : Slot}
    (h : slotAddress address slot = .ok home) : home.toNat = address.toNat + slot.position := by
  unfold slotAddress at h
  split at h
  · rename_i w hw
    cases h
    rw [Word.plus?_eq_some.1 hw]
    cases slot <;> rfl
  · cases h

/-- A write to a word in memory is noted, and is done unless it is set to fail. -/
theorem writeMemory_does (m : SlotMemory) (slot : Slot) (value : Word) {b : Board}
    (h : b.store = .memory m) :
    Ends (onMemory m (.slotWrite slot value) (SlotMemory.write slot value)) b fun _ b' =>
      ∃ failed, Does [.slotWrite slot value failed] b b' := by
  obtain ⟨chip, store, journal⟩ := b
  cases h
  unfold onMemory SlotMemory.write Ends
  dsimp only
  by_cases hf : m.failsWrite (m.writeCalls + 1) = true
  · rw [if_pos hf]
    exact ⟨true, .single rfl rfl ⟨.refl _, _, _, _, rfl⟩⟩
  · rw [if_neg hf]
    refine ⟨false, .single rfl rfl ⟨.refl _, ?_⟩⟩
    change Store.Same (.memory _) (.memory _)
    by_cases hi : m.ignoresWrites = true
    · simp only [if_pos hi]
      exact ⟨_, _, _, rfl⟩
    · simp only [if_neg hi]
      cases slot <;> exact ⟨_, _, _, rfl⟩

section
variable {b : Aperture} {address : Word} {d : Board}

/-- A write into the record. -/
theorem writeRecord_tends (hh : d.store.home? = some (b, address)) {home : Word} {position : Nat}
    {bytes : Bytes} (hp : home.toNat = address.toNat + position)
    (hl : position + bytes.length ≤ sectorSize) :
    Ends (b.write home bytes) d fun _ d' => Tends c a ps d d' := by
  refine (b.write_does home bytes d).mono fun o d' h => ?_
  obtain ⟨_, hd⟩ | ⟨offset, fault, ho, _, hd⟩ := h
  · exact .silent hd
  · have hbase := Aperture.offset_eq_ok.1 ho
    refine .of_store hd ?_
    simp only [hh, List.mem_singleton, forall_eq, Event.OfStore]
    intro i hi
    obtain ⟨hlo, hhi⟩ := hi.write
    constructor <;> omega

/-- The erasure of the record. -/
theorem eraseRecord_tends (hh : d.store.home? = some (b, address)) :
    Ends (b.erase address (.ofNat sectorSize)) d fun _ d' => Tends c a ps d d' := by
  refine (b.erase_does address _ d).mono fun o d' h => ?_
  obtain ⟨_, hd⟩ | ⟨lo, hi, fault, hr, _, hd⟩ := h
  · exact .silent hd
  · obtain ⟨hbase, rfl, _⟩ := Aperture.sectors_eq_ok.1 hr
    refine .of_store hd ?_
    simp only [hh, List.mem_singleton, forall_eq, Event.OfStore]
    intro i hi
    obtain ⟨hlo, hhi⟩ := hi.erase
    rw [show sectorsOf (UInt32.ofNat sectorSize).toNat = sectorSize from rfl] at hhi
    constructor <;> omega

theorem length_read (b : Aperture) (address : Word) (len : Nat) (d : Board) :
    Ends (b.read address len) d fun o _ => ∀ v, o = .ok v → v.length = len := by
  unfold Aperture.read
  cases b.offset address with
  | error e => exact fun _ h => nomatch h
  | ok offset =>
    refine (b.through_ends (d.chip.read_ends offset len)).mono fun o d' h v hv => ?_
    subst hv
    obtain ⟨_, h, _⟩ | ⟨_, o, chip, ho, hv, _⟩ := h
    · cases h
    · cases o with
      | error e => cases hv
      | ok w =>
        cases hv
        rw [ho.2.1, Cells.length_read]

theorem replaceRecord_tends (hh : d.store.home? = some (b, address)) (slot : Slot) (value : Word) :
    Ends (replaceRecord b address slot value) d fun _ d' => Tends c a ps d d' := by
  refine ((length_read b address 8 d).and (Quiet.readFlash b address 8 d)).bind
    (fun record d₁ h => ?_) fun _ _ h => .silent h.2
  obtain ⟨hlen, hd⟩ := h
  have hrecord := hlen record rfl
  have hh₁ : d₁.store.home? = some (b, address) := hd.home?.trans hh
  have hposition : slot.position + 4 ≤ 8 := by cases slot <;> decide
  have hsize : (record.overlay slot.position value.toBytes).length = 8 := by
    rw [Bytes.length_overlay, hrecord]
    rw [Word.length_toBytes, hrecord]
    exact hposition
  refine Ends.mono ?_ fun _ _ => Tends.trans (.silent hd)
  refine (eraseRecord_tends hh₁).bind (fun _ d₂ h => ?_) fun _ _ h => h
  obtain ⟨ms, hms, _⟩ := id h
  refine (writeRecord_tends (hms.home?.trans hh₁) (Nat.add_zero _).symm ?_).mono
    fun _ _ => h.trans
  rw [hsize]
  decide

end

theorem writeSlot_tends {slot : Slot} {value : Word}
    (hv : slot = .bank2Address → value = c.defaultBank2Address) :
    Keeps (Tends c a ps) (writeSlot slot value) := by
  intro d
  unfold writeSlot
  refine Ends.get_bind ?_
  cases hs : d.store with
  | memory m =>
    refine (writeMemory_does m slot value hs).mono fun _ d' h => ?_
    obtain ⟨failed, hd⟩ := h
    refine .of_store hd ?_
    simp only [hs, Store.home?, List.mem_singleton, forall_eq, Event.OfStore]
    exact ⟨_, _, _, rfl, hv⟩
  | record b address =>
    have hh : d.store.home? = some (b, address) := by rw [hs]; rfl
    dsimp only
    cases ha : slotAddress address slot with
    | error e => exact Tends.refl d
    | ok home =>
      have hhome := slotAddress_eq_ok ha
      refine (Quiet.readWord b home d).bind (fun current d₁ hd => ?_) fun _ _ hd => .silent hd
      have hh₁ := hd.home?.trans hh
      refine Ends.mono ?_ fun _ _ => Tends.trans (.silent hd)
      split
      · exact Tends.refl d₁
      · split
        · refine writeRecord_tends hh₁ hhome ?_
          rw [Word.length_toBytes]
          cases slot <;> decide
        · exact replaceRecord_tends hh₁ slot value

theorem eraseTargets_tends (ps : List Placement) :
    Keeps (Tends c a ps) (eraseTargets a ps) := by
  intro b
  refine (eraseTargets_erasures a ps b).mono fun o b' h => ?_
  obtain ⟨es, hd, he⟩ := h
  exact .of_for hd he.for

theorem rollBack_tends (plan : Plan) :
    Keeps (Tends c a plan.placements) (rollBack a plan) := by
  intro b
  unfold rollBack
  split
  · rename_i address hb
    obtain ⟨p, hp, hs⟩ := Plan.bankAddress?_eq_some hb
    refine (a.erase_does address (.ofNat sectorSize) b).mono fun o b' h => ?_
    obtain ⟨_, hd⟩ | ⟨lo, hi, fault, hr, _, hd⟩ := h
    · exact .silent hd
    · refine .of_for hd ?_
      simp only [List.mem_singleton, forall_eq]
      exact ⟨p, hp, .undoing hs hr⟩
  · exact Ends.throw (.refl _)

end Board

namespace Attempt

/-- What a plan needs for its signature to be the start of its primary image. -/
def Signed (flow : Flow) (plan : Plan) : Prop :=
  flow = .container → ∀ p, plan.primary? = some p → p.signatureLen.toNat = Signature.length

theorem finish_tends (a : Attempt) {flow : Flow} {plan : Plan} (hs : Signed flow plan)
    (s : Summary) : Keeps (Tends a.config a.aperture plan.placements) (a.finish flow plan s) := by
  have hactive : ∀ v, Keeps (Tends a.config a.aperture plan.placements)
      (Board.writeSlot .activeBank v) := fun _ => Board.writeSlot_tends Slot.noConfusion
  obtain ⟨e, hx⟩ | ⟨address, hb, ⟨_, hx⟩ | ⟨signature, hflow, _, hx⟩⟩ :=
    a.finish_cases flow plan s
  · rw [hx]
    exact Keeps.throw Tends.refl _
  · rw [hx]
    exact hactive _
  · rw [hx]
    refine Keeps.bind Tends.trans (fun b => ?_) fun _ => hactive _
    refine (a.aperture.write_does address signature.bytes b).mono fun o b' h => ?_
    obtain ⟨_, hd⟩ | ⟨offset, fault, ho, _, hd⟩ := h
    · exact .silent hd
    · simp only [Plan.bankAddress?, Option.bind_eq_bind, Option.bind_eq_some_iff] at hb
      obtain ⟨p, hp, hstart⟩ := hb
      refine .of_for hd ?_
      simp only [List.mem_singleton, forall_eq]
      exact ⟨p, List.mem_of_find?_eq_some hp, .signature hstart (hs hflow p hp) ho⟩

variable [Link σ]

theorem planning_tends (a : Attempt) (ps : List Placement) :
    Rig.KeptByPlanning σ a.config (Tends a.config a.aperture ps) :=
  .of_silent .trans .silent (Board.writeSlot_tends fun _ => rfl)

theorem install_tends (a : Attempt) {flow : Flow} {plan : Plan} (hs : Signed flow plan) :
    Rig.Keeping (Tends a.config a.aperture plan.placements) (a.install flow plan : Staged σ _) := by
  have h := (a.planning_tends (σ := σ) plan.placements).toReads
  have htransfer : Rig.Keeping (Tends a.config a.aperture plan.placements)
      (Rig.transfer a.aperture plan : Rig.Action σ Summary) := by
    intro r
    refine (Rig.transfer_payloads a.aperture plan r).mono fun o r' htransferred => ?_
    obtain ⟨ws, _, hd, hw, _⟩ := htransferred
    exact .of_for hd hw.for
  rw [install_eq]
  exact h.bind (h.deliver (Board.eraseTargets_tends _) htransfer) fun s =>
    .during (.onBoard (a.finish_tends hs s)) _

/-- The calls of an attempt. Without a plan they are the store's own. -/
theorem run_tends (a : Attempt) (hs : ∀ {plan header} {r r₁ : Rig σ},
    a.plan a.config.flow r = .ok (plan, header) r₁ → Signed a.config.flow plan) (r : Rig σ) :
    (∃ f r₁, a.plan a.config.flow r = .error f r₁ ∧
      Tends a.config a.aperture [] r.board (a.run r).2.board) ∨
    ∃ plan header r₁, a.plan a.config.flow r = .ok (plan, header) r₁ ∧
      Tends a.config a.aperture plan.placements r.board (a.run r).2.board :=
  a.run_keeps r (fun _ => Tends.trans) (fun ps => (a.planning_tends ps).plan _)
    (fun hx => a.install_tends (hs hx)) Board.rollBack_tends

end Attempt
end DualBank
