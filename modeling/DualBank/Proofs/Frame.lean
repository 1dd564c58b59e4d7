import DualBank.Proofs.Order

/-! What the calls of an attempt leave alone: the flash outside the sectors of its images, and every
word of the store but the address of bank 2, until the very last call sets the active bank. -/
namespace DualBank

variable {σ : Type}

namespace Event

/-- The call changes no byte but those of the sectors of the images. -/
def Covered (a : Aperture) (ps : List Placement) (e : Event) : Prop :=
  ∀ i, e.Touches i → ∃ p ∈ ps, a.Covers p i

/-- The call sets no word of the store. -/
def Unset (e : Event) : Prop := ∀ slot, ¬e.Sets slot

theorem unset_flash (call : FlashCall) (fault : Option FlashError) : (flash call fault).Unset := by
  intro slot h
  exact h

theorem covered_of_fault {a : Aperture} {ps : List Placement} (call : FlashCall) (e : FlashError) :
    (flash call (some e)).Covered a ps := by
  intro i h
  cases call <;> exact h.elim

theorem covered_slotWrite {a : Aperture} {ps : List Placement} (slot : Slot) (value : Word)
    (failed : Bool) : (slotWrite slot value failed).Covered a ps := by
  intro i h
  exact h.elim

theorem Covered.mono {a : Aperture} {ps ps' : List Placement} {e : Event} (h : e.Covered a ps)
    (hs : ∀ p ∈ ps, p ∈ ps') : e.Covered a ps' := by
  intro i hi
  obtain ⟨p, hp, hc⟩ := h i hi
  exact ⟨p, hs p hp, hc⟩

end Event

variable {a : Aperture} {plan : Plan} {p : Placement} {ps : List Placement} {ms : List Event}

theorem Settles.flash {c : Config} {done : Bool} (h : Settles c ms done) {e : Event} (he : e ∈ ms)
    (i : Nat) : ¬e.Touches i := by
  cases h with
  | kept => simp at he
  | written =>
    obtain rfl := List.mem_singleton.1 he
    exact id

theorem Settles.activeBank {c : Config} {done : Bool} (h : Settles c ms done) {e : Event}
    (he : e ∈ ms) : ¬e.Sets .activeBank := by
  cases h with
  | kept => simp at he
  | @written failed =>
    obtain rfl := List.mem_singleton.1 he
    cases failed
    · exact Slot.noConfusion
    · exact id

/-- What the calls of planning do. -/
theorem Config.Settled.kept {c : Config} {flow : Flow} {b b' : Board} {isOk : Bool}
    (hp : b.store.Plain) (h : c.Settled flow b isOk b') :
    (∀ i < b.chip.size, b'.chip.byte i = b.chip.byte i) ∧
    b'.store.value? .activeBank = b.store.value? .activeBank ∧
    (b'.store.value? .bank2Address = b.store.value? .bank2Address ∨
      b'.store.value? .bank2Address = some c.defaultBank2Address ∧
        (flow = .container → b.store.value? .bank2Address = some erasedWord)) := by
  obtain ⟨ss, settled, hd, hs, _, he⟩ := h
  refine ⟨fun i hi => hd.byte hi fun e he => hs.flash he i,
    hd.value? hp fun e he => hs.activeBank he, ?_⟩
  cases hs with
  | kept => exact .inl (hd.value? hp fun e he => nomatch he)
  | @written failed =>
    cases failed with
    | true => exact .inl (hd.value? hp (by simp [Event.Sets]))
    | false =>
      refine .inr ⟨?_, fun hf => he hf (List.cons_ne_nil _ _)⟩
      rw [hd.replay.store.value?]
      exact (Store.value?_put hp _ _ _).trans (if_pos rfl)

namespace Erasures

theorem covered {done : Bool} (h : Erasures a ps ms done) : ∀ e ∈ ms, e.Covered a ps := by
  induction h with
  | all => simp
  | refused => simp
  | failed hs hl hr => simpa using Event.covered_of_fault _ _
  | @next p ps start len lo hi calls done hs hl hr h ih =>
    intro e he
    rcases List.mem_cons.1 he with rfl | he
    · intro i hi
      exact ⟨p, List.mem_cons_self, a.covers_of_sectors hs hl hr hi.1 hi.2⟩
    · exact (ih e he).mono fun p hp => List.mem_cons_of_mem _ hp

theorem unset {done : Bool} (h : Erasures a ps ms done) : ∀ e ∈ ms, e.Unset := by
  induction h with
  | all => simp
  | refused => simp
  | failed hs hl hr => simpa using Event.unset_flash _ _
  | next hs hl hr h ih =>
    intro e he
    rcases List.mem_cons.1 he with rfl | he
    · exact Event.unset_flash _ _
    · exact ih e he

end Erasures

namespace Deposits

theorem covered (hp : p.Fits) {done : Nat} {whole : Bool} (h : Deposits a p done ms whole) :
    ∀ e ∈ ms, e.Covered a [p] := by
  induction h with
  | whole => simp
  | broken => simp
  | failed hb ha hl => simpa using Event.covered_of_fault _ _
  | @next done offset bytes calls whole hb ha hl h ih =>
    intro e he
    rcases List.mem_cons.1 he with rfl | he
    · intro i hi
      have hlo : offset ≤ i := hi.1
      have hhi : i < offset + bytes.length := hi.2
      have hs := hp.signature_le_destination
      have hspan := le_sectorsOf p.span
      refine ⟨p, List.mem_singleton_self p, ?_, ?_⟩
      · omega
      · simp only [Placement.span] at hspan ⊢
        omega
    · exact ih e he

theorem unset {done : Nat} {whole : Bool} (h : Deposits a p done ms whole) :
    ∀ e ∈ ms, e.Unset := by
  induction h with
  | whole => simp
  | broken => simp
  | failed hb ha hl => simpa using Event.unset_flash _ _
  | next hb ha hl h ih =>
    intro e he
    rcases List.mem_cons.1 he with rfl | he
    · exact Event.unset_flash _ _
    · exact ih e he

end Deposits

namespace Payloads

theorem covered (hp : ∀ p ∈ ps, p.Fits) {whole : Bool} (h : Payloads a ps ms whole) :
    ∀ e ∈ ms, e.Covered a ps := by
  induction h with
  | all => simp
  | @image p ps calls rest whole hd h ih =>
    intro e he
    rcases List.mem_append.1 he with he | he
    · exact (hd.covered (hp p List.mem_cons_self) e he).mono (by simp)
    · exact (ih (fun p h => hp p (List.mem_cons_of_mem _ h)) e he).mono
        fun p hp => List.mem_cons_of_mem _ hp
  | @broken p ps calls hd =>
    intro e he
    exact (hd.covered (hp p List.mem_cons_self) e he).mono (by simp)

theorem unset {whole : Bool} (h : Payloads a ps ms whole) : ∀ e ∈ ms, e.Unset := by
  induction h with
  | all => simp
  | image hd h ih =>
    intro e he
    rcases List.mem_append.1 he with he | he
    · exact hd.unset e he
    · exact ih e he
  | broken hd => exact hd.unset

end Payloads

/-- The first sector of the target bank is one of the primary image's. -/
theorem Aperture.covers_bankAddress {address : Word} (hb : plan.bankAddress? = some address)
    {offset : Nat} (ho : a.offset address = .ok offset) {i : Nat} (hlo : offset ≤ i)
    (hhi : i < offset + sectorSize) :
    ∃ p ∈ plan.placements, a.Covers p i := by
  obtain ⟨p, hp, hs⟩ := Plan.bankAddress?_eq_some hb
  have hstart := Placement.regionStart?_eq_some.1 hs
  have hbase := Aperture.offset_eq_ok.1 ho
  have hspan := sectorSize_le_sectorsOf p.span
  refine ⟨p, hp, ?_, ?_⟩ <;> omega

namespace Commits

theorem covered {flow : Flow} {done : Bool}
    (h : Commits a plan flow ms done) : ∀ e ∈ ms, e.Covered a plan.placements := by
  cases h with
  | refused => simp
  | unsigned hb ho => simpa using Event.covered_of_fault _ _
  | @signed address offset s failed hb ho =>
    intro e he
    rcases List.mem_cons.1 he with rfl | he
    · intro i hi
      have hlo : offset ≤ i := hi.1
      have hhi : i < offset + s.bytes.length := hi.2
      refine a.covers_bankAddress hb ho hlo ?_
      rw [s.length_bytes] at hhi
      simp only [sectorSize]
      omega
    · obtain rfl := List.mem_singleton.1 he
      exact Event.covered_slotWrite _ _ _
  | bare => simpa using Event.covered_slotWrite _ _ _

theorem unset {flow : Flow} (h : Commits a plan flow ms false) : ∀ e ∈ ms, e.Unset := by
  generalize hd : false = done at h
  cases h with
  | refused => simp
  | unsigned hb ho => simpa using Event.unset_flash _ _
  | @signed address offset s failed hb ho =>
    obtain rfl : failed = true := by simpa using hd
    intro e he
    rcases List.mem_cons.1 he with rfl | he
    · exact Event.unset_flash _ _
    · obtain rfl := List.mem_singleton.1 he
      exact fun slot => id
  | @bare failed =>
    obtain rfl : failed = true := by simpa using hd
    intro e he
    obtain rfl := List.mem_singleton.1 he
    exact fun slot => id

/-- The last call sets the active bank. -/
theorem last {flow : Flow} (h : Commits a plan flow ms true) : ∃ cs, (∀ e ∈ cs, e.Unset) ∧
    ms = cs ++ [.slotWrite .activeBank plan.targetBank.toWord false] := by
  generalize hd : true = done at h
  cases h with
  | refused => cases hd
  | unsigned => cases hd
  | @signed address offset s failed hb ho =>
    obtain rfl : failed = false := by simpa using hd
    exact ⟨[_], by simpa using Event.unset_flash _ _, rfl⟩
  | @bare failed =>
    obtain rfl : failed = false := by simpa using hd
    exact ⟨[], by simp, rfl⟩

end Commits

namespace Undoes

theorem covered {done : Bool} (h : Undoes a plan ms done) :
    ∀ e ∈ ms, e.Covered a plan.placements := by
  cases h with
  | refused => simp
  | @erased address offset fault hb ho =>
    intro e he
    obtain rfl := List.mem_singleton.1 he
    cases fault with
    | some e => exact Event.covered_of_fault _ _
    | none =>
      intro i hi
      exact a.covers_bankAddress hb ho hi.1 hi.2

theorem unset {done : Bool} (h : Undoes a plan ms done) : ∀ e ∈ ms, e.Unset := by
  cases h with
  | refused => simp
  | erased hb ho => simpa using Event.unset_flash _ _

end Undoes

namespace Attempt.Installs

variable [Link σ] {a : Attempt} {flow : Flow} {r : Rig σ} {o : Except Failure Unit}

theorem covered (hw : plan.WellFormed) (h : a.Installs flow plan r ms o) :
    ∀ e ∈ ms, e.Covered a.aperture plan.placements := by
  intro e he
  cases h with
  | unerased hes => exact hes.covered e he
  | broken hes hws | unverified hes hws =>
    rcases List.mem_append.1 he with he | he
    · exact hes.covered e he
    · exact hws.covered hw.fits e he
  | uncommitted hes hws hv hcs | committed hes hws hv hcs =>
    rcases List.mem_append.1 he with he | he
    · rcases List.mem_append.1 he with he | he
      · exact hes.covered e he
      · exact hws.covered hw.fits e he
    · exact hcs.covered e he

theorem unset {f : Failure} (h : a.Installs flow plan r ms (.error f)) : ∀ e ∈ ms, e.Unset := by
  intro e he
  cases h with
  | unerased hes => exact hes.unset e he
  | broken hes hws | unverified hes hws =>
    rcases List.mem_append.1 he with he | he
    · exact hes.unset e he
    · exact hws.unset e he
  | uncommitted hes hws hv hcs =>
    rcases List.mem_append.1 he with he | he
    · rcases List.mem_append.1 he with he | he
      · exact hes.unset e he
      · exact hws.unset e he
    · exact hcs.unset e he

theorem last (h : a.Installs flow plan r ms (.ok ())) : ∃ cs, (∀ e ∈ cs, e.Unset) ∧
    ms = cs ++ [.slotWrite .activeBank plan.targetBank.toWord false] := by
  cases h with
  | @committed es ws cs hes hws hv hcs =>
    obtain ⟨cs, hunset, rfl⟩ := hcs.last
    refine ⟨es ++ ws ++ cs, ?_, (List.append_assoc _ _ _).symm⟩
    intro e he
    rcases List.mem_append.1 he with he | he
    · rcases List.mem_append.1 he with he | he
      · exact hes.unset e he
      · exact hws.unset e he
    · exact hunset e he

end Attempt.Installs
end DualBank
